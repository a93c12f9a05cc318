import Anthill.KernelReclaim
import Anthill.SoftCopy

set_option autoImplicit false

namespace Anthill

open Radix

-- Go on where the error is ERR_OK; any other one is returned at once.
def whenOk (result : Except Halt (KernErr × Kernel)) (next : Kernel → Except Halt (KernErr × Kernel)) :
    Except Halt (KernErr × Kernel) :=
  match result with
  | .ok (.ok, k) => next k
  | other => other

-- mmu_mark_freed, and where it counted nothing, mem_kernel_free_page and the entry set to zero.
def teardownEntry (k : Kernel) (level : Word) (i : Idx) : Except Halt (KernErr × Kernel) :=
  let freed := mmuMarkFreed (k.mem level i)
  let k := k.write level i freed.2
  if freed.1 = 0 then
    whenOk (memKernelFreePage k (mmuGetVaddr (k.mem level i))) fun k => .ok (.ok, k.write level i 0)
  else .ok (.ok, k)

def teardownLoop (round : Kernel → Idx → Except Halt (KernErr × Kernel)) :
    List Idx → Kernel → Except Halt (KernErr × Kernel)
  | [], k => .ok (.ok, k)
  | i :: idx, k => whenOk (round k i) (teardownLoop round idx)

-- The body of each of the four loops of mem_table_teardown. `below` is the loop over the next level,
-- and `blocks` tells whether the loop looks for blocks.
def teardownRound (below : Word → Kernel → Except Halt (KernErr × Kernel)) (blocks : Bool)
    (level : Word) (k : Kernel) (i : Idx) : Except Halt (KernErr × Kernel) :=
  if !mmuIsValid (k.mem level i) then .ok (.ok, k)
  else if blocks && mmuIsBlock (k.mem level i) then teardownEntry k level i
  else whenOk (below (mmuGetVaddr (k.mem level i)) k) fun k => teardownEntry k level i

def teardown3 (level3 : Word) : Kernel → Except Halt (KernErr × Kernel) :=
  teardownLoop (teardownRound (fun _ k => .ok (.ok, k)) false level3) (List.finRange 512)

def teardown2 (level2 : Word) : Kernel → Except Halt (KernErr × Kernel) :=
  teardownLoop (teardownRound teardown3 true level2) (List.finRange 512)

def teardown1 (level1 : Word) : Kernel → Except Halt (KernErr × Kernel) :=
  teardownLoop (teardownRound teardown2 true level1) (List.finRange 512)

def memTableTeardown (k : Kernel) (table : Word) : Except Halt (KernErr × Kernel) :=
  teardownLoop (teardownRound teardown1 false table) (List.finRange 512) k

def tornEntry (entry : Word) : Word :=
  if refCount entry = 0 then 0 else (mmuMarkFreed entry).2

/-- The entries of `gone` have been torn down, and no other user entry was written. -/
structure Torn (k k' : Kernel) (rank : Word → Option Nat) (gone : List (Word × Idx)) : Prop where
  ranked : KernelRanked k' rank
  inside : ∀ p i, (p, i) ∈ gone → k'.mem p i = tornEntry (k.mem p i)
  outside : ∀ p i, rank p = none → (p, i) ∉ gone → k'.mem p i = k.mem p i
  marks : ∀ n, n < managed → (marked k'.memoryMap n = true ↔ marked k.memoryMap n = true ∧
    ¬ ∃ p i, (p, i) ∈ gone ∧ refCount (k.mem p i) = 0 ∧ mmuGetVaddr (k.mem p i) = poolVa n)

theorem exists_single {A B : Type} (a : A) (b : B) (P : A → B → Prop) :
    (∃ x y, (x, y) ∈ [(a, b)] ∧ P x y) ↔ P a b := by
  constructor
  · rintro ⟨x, y, member, holds⟩
    obtain ⟨rfl, rfl⟩ := Prod.mk.inj (List.mem_singleton.mp member)
    exact holds
  · exact fun holds => ⟨a, b, List.mem_singleton.mpr rfl, holds⟩

theorem Torn.nothing {k : Kernel} {rank : Word → Option Nat} (ranked : KernelRanked k rank) :
    Torn k k rank [] where
  ranked := ranked
  inside _ _ member := by cases member
  outside _ _ _ _ := rfl
  marks _ _ := by simp

theorem Torn.cons {k k' k'' : Kernel} {rank : Word → Option Nat} {p : Word} {i : Idx}
    {gone : List (Word × Idx)} (first : Torn k k' rank [(p, i)]) (rest : Torn k' k'' rank gone)
    (user : ∀ p i, (p, i) ∈ gone → rank p = none) (here : rank p = none) (new : (p, i) ∉ gone) :
    Torn k k'' rank ((p, i) :: gone) := by
  have before (p' : Word) (i' : Idx) (member : (p', i') ∈ gone) : k'.mem p' i' = k.mem p' i' := by
    refine first.outside p' i' (user p' i' member) fun same => new ?_
    rw [List.mem_singleton] at same
    exact same ▸ member
  refine ⟨rest.ranked, fun p' i' member => ?_, fun p' i' none away => ?_, fun n inside => ?_⟩
  · rcases List.mem_cons.mp member with same | later
    · obtain ⟨rfl, rfl⟩ := Prod.mk.inj same
      rw [rest.outside p' i' here new, first.inside p' i' (by simp)]
    · rw [rest.inside p' i' later, before p' i' later]
  · rw [List.mem_cons, not_or] at away
    rw [rest.outside p' i' none away.2, first.outside p' i' none (by simpa using away.1)]
  · rw [rest.marks n inside, first.marks n inside]
    constructor
    · rintro ⟨⟨set, notFirst⟩, notLater⟩
      refine ⟨set, ?_⟩
      rintro ⟨p', i', member, zero, names⟩
      rcases List.mem_cons.mp member with same | later
      · exact notFirst ⟨p', i', by rw [same]; simp, zero, names⟩
      · rw [← before p' i' later] at zero names
        exact notLater ⟨p', i', later, zero, names⟩
    · rintro ⟨set, notAny⟩
      refine ⟨⟨set, ?_⟩, ?_⟩
      · rintro ⟨p', i', member, zero, names⟩
        rw [List.mem_singleton] at member
        exact notAny ⟨p', i', by rw [member]; simp, zero, names⟩
      · rintro ⟨p', i', later, zero, names⟩
        rw [before p' i' later] at zero names
        exact notAny ⟨p', i', List.mem_cons_of_mem _ later, zero, names⟩

/-- An entry of a user table is torn down, or the page it names cannot be freed and it stays. -/
theorem teardownEntry_torn {k k' : Kernel} {rank : Word → Option Nat} (ranked : KernelRanked k rank)
    (p : Word) (i : Idx) (user : rank p = none) (err : KernErr)
    (done : teardownEntry k p i = .ok (err, k')) :
    (err = .ok ∧ Torn k k' rank [(p, i)]) ∨ (err ≠ .ok ∧ Torn k k' rank []) := by
  by_cases zero : refCount (k.mem p i) = 0
  · have same : k.write p i (mmuMarkFreed (k.mem p i)).2 = k := by
      rw [mmuMarkFreed_zero _ zero, Kernel.write_self]
    simp only [teardownEntry, mmuMarkFreed_fst, zero, if_true, same] at done
    cases freed : memKernelFreePage k (mmuGetVaddr (k.mem p i)) with
    | error halt =>
      rw [freed] at done
      cases done
    | ok result =>
      obtain ⟨e, k₁⟩ := result
      have reclaimed := memKernelFreePage_any ranked (k.mem p i) e freed
      rw [freed] at done
      by_cases fine : e = .ok
      · subst fine
        simp only [whenOk, Except.ok.injEq, Prod.mk.injEq] at done
        obtain ⟨rfl, rfl⟩ := done
        have other (p' : Word) (i' : Idx) (away : p' ≠ p ∨ i' ≠ i) :
            (k₁.write p i 0).mem p' i' = k₁.mem p' i' := put_other _ _ _ _ _ _ away
        refine .inl ⟨rfl, reclaimed.ranked.shrink rfl fun p' i' _ table => ?_, fun p' i' member => ?_,
          fun p' i' none away => ?_, fun n inside => ?_⟩
        · refine other p' i' (.inl ?_)
          rintro rfl
          exact table user
        · obtain ⟨rfl, rfl⟩ := Prod.mk.inj (List.mem_singleton.mp member)
          rw [tornEntry, if_pos zero]
          exact put_same _ _ _ _
        · rw [other p' i', reclaimed.rows p' none]
          by_contra both
          push Not at both
          exact away (by rw [both.1, both.2]; simp)
        · show marked k₁.memoryMap n = true ↔ _
          rw [reclaimed.marks n inside, exists_single p i fun p i =>
            refCount (k.mem p i) = 0 ∧ mmuGetVaddr (k.mem p i) = poolVa n]
          simp only [zero, true_and, eq_comm]
      · have kept : whenOk (.ok (e, k₁)) (fun k => .ok (.ok, k.write p i 0)) = .ok (e, k₁) := by
          cases e <;> first | exact absurd rfl fine | rfl
        rw [kept] at done
        obtain ⟨rfl, rfl⟩ := Prod.mk.inj (Except.ok.inj done)
        have nothing (p : Word) (i : Idx) : (p, i) ∉ ([] : List (Word × Idx)) := List.not_mem_nil
        refine .inr ⟨fine, reclaimed.ranked, fun p' i' member => absurd member (nothing p' i'), ?_, ?_⟩
        · intro p' i' none _
          rw [reclaimed.rows p' none]
        · intro n inside
          rw [reclaimed.marks n inside]
          simp [fine]
  · simp only [teardownEntry, mmuMarkFreed_fst, zero, if_false, Except.ok.injEq, Prod.mk.injEq] at done
    obtain ⟨rfl, rfl⟩ := done
    have other (p' : Word) (i' : Idx) (away : p' ≠ p ∨ i' ≠ i) :
        (k.write p i (mmuMarkFreed (k.mem p i)).2).mem p' i' = k.mem p' i' :=
      put_other _ _ _ _ _ _ away
    refine .inl ⟨rfl, ranked.shrink rfl fun p' i' _ table => ?_, fun p' i' member => ?_,
      fun p' i' none away => ?_, fun n inside => ?_⟩
    · refine other p' i' (.inl ?_)
      rintro rfl
      exact table user
    · obtain ⟨rfl, rfl⟩ := Prod.mk.inj (List.mem_singleton.mp member)
      rw [tornEntry, if_neg zero]
      exact put_same _ _ _ _
    · apply other
      by_contra both
      push Not at both
      exact away (by rw [both.1, both.2]; simp)
    · show marked k.memoryMap n = true ↔ _
      rw [exists_single p i fun p i =>
        refCount (k.mem p i) = 0 ∧ mmuGetVaddr (k.mem p i) = poolVa n]
      exact (and_iff_left fun both => zero both.1).symm

def runEntries : List (Word × Idx) → Kernel → Except Halt (KernErr × Kernel)
  | [], k => .ok (.ok, k)
  | entry :: rest, k => whenOk (teardownEntry k entry.1 entry.2) (runEntries rest)

theorem whenOk_assoc (result : Except Halt (KernErr × Kernel))
    (f g : Kernel → Except Halt (KernErr × Kernel)) :
    whenOk (whenOk result f) g = whenOk result fun k => whenOk (f k) g := by
  rcases result with halt | ⟨err, k⟩
  · rfl
  · cases err <;> rfl

theorem whenOk_congr (result : Except Halt (KernErr × Kernel))
    (f g : Kernel → Except Halt (KernErr × Kernel)) (same : ∀ k, result = .ok (.ok, k) → f k = g k) :
    whenOk result f = whenOk result g := by
  rcases result with halt | ⟨err, k⟩
  · rfl
  · cases err <;> first | exact same k rfl | rfl

theorem runEntries_append (first second : List (Word × Idx)) (k : Kernel) :
    runEntries (first ++ second) k = whenOk (runEntries first k) (runEntries second) := by
  induction first generalizing k with
  | nil => rfl
  | cons entry first ih =>
    rw [List.cons_append, runEntries, runEntries, whenOk_assoc]
    exact whenOk_congr _ _ _ fun k _ => ih k

theorem runEntries_torn {k k' : Kernel} {rank : Word → Option Nat} (ranked : KernelRanked k rank)
    (entries : List (Word × Idx)) (distinct : entries.Nodup)
    (user : ∀ p i, (p, i) ∈ entries → rank p = none) (err : KernErr)
    (done : runEntries entries k = .ok (err, k')) :
    ∃ gone rest, entries = gone ++ rest ∧ (err = .ok → rest = []) ∧ Torn k k' rank gone := by
  induction entries generalizing k with
  | nil =>
    obtain ⟨rfl, rfl⟩ := Prod.mk.inj (Except.ok.inj done)
    exact ⟨[], [], rfl, fun _ => rfl, .nothing ranked⟩
  | cons entry entries ih =>
    obtain ⟨p, i⟩ := entry
    rw [List.nodup_cons] at distinct
    have here := user p i List.mem_cons_self
    simp only [runEntries] at done
    cases first : teardownEntry k p i with
    | error halt =>
      rw [first] at done
      cases done
    | ok result =>
      obtain ⟨e, k₁⟩ := result
      rw [first] at done
      rcases teardownEntry_torn ranked p i here e first with ⟨rfl, torn⟩ | ⟨failed, torn⟩
      · obtain ⟨gone, rest, rfl, whole, later⟩ := ih torn.ranked distinct.2
          (fun p i member => user p i (List.mem_cons_of_mem _ member)) done
        exact ⟨(p, i) :: gone, rest, rfl, whole, torn.cons later
          (fun p i member => user p i (List.mem_cons_of_mem _ (List.mem_append_left _ member))) here
          fun member => distinct.1 (List.mem_append_left _ member)⟩
      · have stopped : whenOk (.ok (e, k₁)) (runEntries entries) = .ok (e, k₁) := by
          cases e <;> first | exact absurd rfl failed | rfl
        rw [stopped] at done
        obtain ⟨rfl, rfl⟩ := Prod.mk.inj (Except.ok.inj done)
        exact ⟨[], (p, i) :: entries, rfl, fun fine => absurd fine failed, torn⟩

-- The valid entries of `c` and of the tables up to `d` levels down, each after those below it.
def visits (m : Mem) : Nat → Word → List (Word × Idx)
  | 0, _ => []
  | d + 1, c => (List.finRange 512).flatMap fun j =>
    if mmuIsValid (m c j) then visits m d (mmuGetVaddr (m c j)) ++ [(c, j)] else []

def visitsAt (m : Mem) (d : Nat) (c : Word) (j : Idx) : List (Word × Idx) :=
  if mmuIsValid (m c j) then visits m d (mmuGetVaddr (m c j)) ++ [(c, j)] else []

theorem visits_succ (m : Mem) (d : Nat) (c : Word) :
    visits m (d + 1) c = (List.finRange 512).flatMap (visitsAt m d c) := rfl

theorem mem_visits (m : Mem) (d : Nat) (c p : Word) (i : Idx) :
    (p, i) ∈ visits m d c ↔
      ∃ r, r.length < d ∧ node nav m c r = some p ∧ mmuIsValid (m p i) = true := by
  induction d generalizing c with
  | zero => simp [visits]
  | succ d ih =>
    simp only [visits_succ, List.mem_flatMap, List.mem_finRange, true_and]
    constructor
    · rintro ⟨j, member⟩
      unfold visitsAt at member
      split_ifs at member with valid
      · rcases List.mem_append.mp member with below | here
        · obtain ⟨r, short, found, there⟩ := (ih _).mp below
          refine ⟨j :: r, by simpa using short, ?_, there⟩
          rw [node_cons, nav_of_valid _ valid]
          exact found
        · obtain ⟨rfl, rfl⟩ := Prod.mk.inj (List.mem_singleton.mp here)
          exact ⟨[], by simp, rfl, valid⟩
      · cases member
    · rintro ⟨r, short, found, there⟩
      cases r with
      | nil =>
        obtain rfl : c = p := by simpa using found
        exact ⟨i, by simp [visitsAt, there]⟩
      | cons j r =>
        rw [node_cons] at found
        cases valid : mmuIsValid (m c j) with
        | false =>
          rw [nav_of_invalid _ valid] at found
          cases found
        | true =>
          rw [nav_of_valid _ valid, Option.bind_some] at found
          refine ⟨j, ?_⟩
          simp only [visitsAt, valid, if_true, List.mem_append]
          exact .inl ((ih _).mpr ⟨r, by simpa using short, found, there⟩)

theorem visits_congr {m m' : Mem} (d : Nat) (c : Word)
    (same : ∀ r p, r.length < d → node nav m c r = some p → m' p = m p) :
    visits m' d c = visits m d c := by
  induction d generalizing c with
  | zero => rfl
  | succ d ih =>
    have row : m' c = m c := same [] c (by simp) rfl
    refine List.flatMap_congr fun j _ => ?_
    rw [row]
    split_ifs with valid
    · rw [ih _ fun r p short found => same (j :: r) p (by simpa using short) (by
        rw [node_cons, nav_of_valid _ valid]
        exact found)]
    · rfl

section Visits

variable {m : Mem} {pos : Pos} (shaped : Shaped m pos) {c : Word} {q : List Idx}
  (here : pos c = some q)

include shaped here

theorem visitsAt_where (d : Nat) (short : q.length + d ≤ 3) (j : Idx) (p : Word) (i : Idx)
    (member : (p, i) ∈ visitsAt m d c j) :
    (p = c ∧ i = j) ∨ ∃ r, pos p = some (q ++ j :: r) := by
  unfold visitsAt at member
  split_ifs at member with valid
  · rcases List.mem_append.mp member with below | self
    · obtain ⟨r, low, found, _⟩ := (mem_visits m d _ p i).mp below
      refine .inr ⟨r, shaped.node_pos here (j :: r) p (by rw [List.length_cons]; omega) ?_⟩
      rw [node_cons, nav_of_valid _ valid]
      exact found
    · exact .inl (Prod.mk.inj (List.mem_singleton.mp self))
  · cases member

theorem visitsAt_apart (d : Nat) (short : q.length + d ≤ 3) (j j' : Idx) (different : j ≠ j') (p : Word)
    (i : Idx) (first : (p, i) ∈ visitsAt m d c j) : (p, i) ∉ visitsAt m d c j' := by
  intro second
  rcases visitsAt_where shaped here d short j p i first with ⟨rfl, rfl⟩ | ⟨r, position⟩ <;>
    rcases visitsAt_where shaped here d short j' p i second with ⟨same, again⟩ | ⟨r', position'⟩
  · exact different again
  · have path := here.symm.trans position'
    simp at path
  · subst same
    have path := here.symm.trans position
    simp at path
  · have path := position.symm.trans position'
    simp only [Option.some.injEq, List.append_cancel_left_eq, List.cons.injEq] at path
    exact different path.1

theorem visits_nodup (d : Nat) (short : q.length + d ≤ 4) : (visits m d c).Nodup := by
  induction d generalizing c q with
  | zero => simp [visits]
  | succ d ih =>
    rw [visits_succ, List.nodup_flatMap]
    refine ⟨fun j _ => ?_, ?_⟩
    · unfold visitsAt
      split_ifs with valid
      · have child : d = 0 ∨ pos (mmuGetVaddr (m c j)) = some (q ++ [j]) := by
          rcases Nat.eq_zero_or_pos d with zero | positive
          · exact .inl zero
          · exact .inr (shaped.typed.child c q j _ here (by omega) (nav_of_valid _ valid))
        refine List.nodup_append.mpr ⟨?_, List.nodup_singleton _, ?_⟩
        · rcases child with rfl | child
          · simp [visits]
          · exact ih child (by rw [List.length_append, List.length_singleton]; omega)
        · rintro ⟨p, i⟩ below _ self same
          obtain rfl := same
          obtain ⟨rfl, rfl⟩ := Prod.mk.inj (List.mem_singleton.mp self)
          obtain ⟨r, low, found, _⟩ := (mem_visits m d _ p i).mp below
          have position := shaped.node_pos here (i :: r) p (by rw [List.length_cons]; omega) (by
            rw [node_cons, nav_of_valid _ valid]
            exact found)
          have path := here.symm.trans position
          simp at path
      · exact List.nodup_nil
    · refine (List.nodup_finRange 512).pairwise_of_forall_ne fun j _ j' _ different => ?_
      rintro ⟨p, i⟩ first second
      exact visitsAt_apart shaped here d (by omega) j j' different p i first second

end Visits

/-- User tables that lie apart from the kernel's, as far as the kernel's tables can be walked. -/
structure Clearable (k : Kernel) (pos : Pos) (rank : Word → Option Nat) : Prop where
  shaped : Shaped k.mem pos
  ranked : KernelRanked k rank
  user : ∀ p q, pos p = some q → rank p = none

theorem tornEntry_cases (entry : Word) :
    tornEntry entry = 0 ∨ tornEntry entry &&& navMask = entry &&& navMask := by
  unfold tornEntry
  split_ifs
  · exact .inl rfl
  · exact .inr (mmuMarkFreed_nav entry)

theorem Torn.entry {k k' : Kernel} {rank : Word → Option Nat} {gone : List (Word × Idx)}
    (torn : Torn k k' rank gone) (p : Word) (i : Idx) (user : rank p = none) :
    k'.mem p i = 0 ∨ k'.mem p i &&& navMask = k.mem p i &&& navMask := by
  by_cases member : (p, i) ∈ gone
  · rw [torn.inside p i member]
    exact tornEntry_cases _
  · exact .inr (by rw [torn.outside p i user member])

theorem Clearable.torn {k k' : Kernel} {pos : Pos} {rank : Word → Option Nat}
    {gone : List (Word × Idx)} (clearable : Clearable k pos rank) (torn : Torn k k' rank gone) :
    Clearable k' pos rank := by
  have entry (p : Word) (q : List Idx) (i : Idx) (position : pos p = some q) :=
    torn.entry p i (clearable.user p q position)
  refine ⟨⟨⟨clearable.shaped.typed.bound, fun p q i c position short found => ?_⟩,
    fun p q i position upper valid => ?_, fun p q i position first invalid => ?_⟩, torn.ranked,
    clearable.user⟩
  · rcases entry p q i position with zero | same
    · rw [zero, nav_of_invalid _ isValid_zero] at found
      cases found
    · rw [nav_congr _ _ same] at found
      exact clearable.shaped.typed.child p q i c position short found
  · rcases entry p q i position with zero | same
    · rw [zero, isValid_zero] at valid
      cases valid
    · rw [isValid_congr _ _ same] at valid
      rw [isBlock_congr _ _ same]
      exact clearable.shaped.table p q i position upper valid
  · rcases entry p q i position with zero | same
    · rw [zero, isBlock_zero]
    · rw [isValid_congr _ _ same] at invalid
      rw [isBlock_congr _ _ same]
      exact clearable.shaped.blank p q i position first invalid

section Flatten

variable {pos : Pos} {rank : Word → Option Nat}

/-- A loop of mem_table_teardown visits its entries one after another, each after the tables below. -/
theorem teardownLoop_visits (d : Nat) (below : Word → Kernel → Except Halt (KernErr × Kernel))
    (blocks : Bool) (c : Word) (q : List Idx) (here : pos c = some q) (size : q.length + d = 3)
    (upper : blocks = true → q.length = 1 ∨ q.length = 2)
    (spec : ∀ k c q, Clearable k pos rank → (d = 0 ∨ pos c = some q ∧ q.length + d = 4) →
      below c k = runEntries (visits k.mem d c) k)
    (idx : List Idx) (distinct : idx.Nodup) (k : Kernel) (clearable : Clearable k pos rank) :
    teardownLoop (teardownRound below blocks c) idx k =
      runEntries (idx.flatMap (visitsAt k.mem d c)) k := by
  induction idx generalizing k with
  | nil => rfl
  | cons j idx ih =>
    rw [List.nodup_cons] at distinct
    have shaped := clearable.shaped
    rw [List.flatMap_cons, runEntries_append, teardownLoop]
    have round : teardownRound below blocks c k j = runEntries (visitsAt k.mem d c j) k := by
      unfold teardownRound visitsAt
      cases valid : mmuIsValid (k.mem c j) with
      | false => rfl
      | true =>
        have table : (blocks && mmuIsBlock (k.mem c j)) = false := by
          cases blocks with
          | false => rfl
          | true =>
            rw [Bool.true_and]
            exact shaped.table c q j here (upper rfl) valid
        have child : d = 0 ∨ pos (mmuGetVaddr (k.mem c j)) = some (q ++ [j]) ∧
            (q ++ [j]).length + d = 4 := by
          rcases Nat.eq_zero_or_pos d with zero | positive
          · exact .inl zero
          · refine .inr ⟨shaped.typed.child c q j _ here (by omega) (nav_of_valid _ valid), ?_⟩
            rw [List.length_append, List.length_singleton]
            omega
        have next := spec k (mmuGetVaddr (k.mem c j)) (q ++ [j]) clearable child
        simp only [table, Bool.not_true, Bool.false_eq_true, if_false, if_true, next,
          runEntries_append]
        refine whenOk_congr _ _ _ fun k₁ _ => ?_
        rw [runEntries]
        rcases teardownEntry k₁ c j with halt | ⟨err, k₂⟩
        · rfl
        · cases err <;> rfl
    rw [round]
    refine whenOk_congr _ _ _ fun k₁ done => ?_
    -- What the first entry's round wrote lies apart from what the others will read.
    have userEntry (p : Word) (i : Idx) (member : (p, i) ∈ visitsAt k.mem d c j) : rank p = none := by
      rcases visitsAt_where shaped here d (by omega) j p i member with ⟨rfl, _⟩ | ⟨r, position⟩
      · exact clearable.user p q here
      · exact clearable.user p _ position
    have nodup : (visitsAt k.mem d c j).Nodup := by
      have all := visits_nodup shaped here (d + 1) (by omega)
      rw [visits_succ, List.nodup_flatMap] at all
      exact all.1 j (List.mem_finRange j)
    obtain ⟨gone, rest, split, whole, torn⟩ :=
      runEntries_torn clearable.ranked _ nodup userEntry .ok done
    obtain rfl := whole rfl
    rw [List.append_nil] at split
    subst split
    rw [ih distinct.2 k₁ (clearable.torn torn)]
    congr 1
    refine List.flatMap_congr fun j' member => ?_
    have different : j' ≠ j := fun same => distinct.1 (same ▸ member)
    have self : k₁.mem c j' = k.mem c j' := by
      refine torn.outside c j' (clearable.user c q here) fun visited => ?_
      rcases visitsAt_where shaped here d (by omega) j c j' visited with ⟨_, same⟩ | ⟨r, position⟩
      · exact different same
      · have path := here.symm.trans position
        simp at path
    unfold visitsAt
    rw [self]
    split_ifs with valid
    · rw [visits_congr d _ fun r p low found => ?_]
      have walk : node nav k.mem c (j' :: r) = some p := by
        rw [node_cons, nav_of_valid _ valid]
        exact found
      have position := shaped.node_pos here (j' :: r) p (by rw [List.length_cons]; omega) walk
      funext i
      refine torn.outside p i (clearable.user p _ position) fun visited => ?_
      rcases visitsAt_where shaped here d (by omega) j p i visited with ⟨rfl, _⟩ | ⟨r', position'⟩
      · have path := here.symm.trans position
        simp at path
      · have path := position.symm.trans position'
        simp only [Option.some.injEq, List.append_cancel_left_eq, List.cons.injEq] at path
        exact different path.1
    · rfl

theorem teardown3_visits (k : Kernel) (c : Word) (q : List Idx) (clearable : Clearable k pos rank)
    (here : pos c = some q) (size : q.length + 1 = 4) :
    teardown3 c k = runEntries (visits k.mem 1 c) k :=
  teardownLoop_visits 0 _ false c q here (by omega) (by simp) (fun _ _ _ _ _ => rfl) _
    (List.nodup_finRange 512) k clearable

theorem teardown2_visits (k : Kernel) (c : Word) (q : List Idx) (clearable : Clearable k pos rank)
    (here : pos c = some q) (size : q.length + 2 = 4) :
    teardown2 c k = runEntries (visits k.mem 2 c) k := by
  refine teardownLoop_visits 1 _ true c q here (by omega) (fun _ => by omega) ?_ _
    (List.nodup_finRange 512) k clearable
  rintro k c q clearable (impossible | ⟨here, size⟩)
  · cases impossible
  · exact teardown3_visits k c q clearable here size

theorem teardown1_visits (k : Kernel) (c : Word) (q : List Idx) (clearable : Clearable k pos rank)
    (here : pos c = some q) (size : q.length + 3 = 4) :
    teardown1 c k = runEntries (visits k.mem 3 c) k := by
  refine teardownLoop_visits 2 _ true c q here (by omega) (fun _ => by omega) ?_ _
    (List.nodup_finRange 512) k clearable
  rintro k c q clearable (impossible | ⟨here, size⟩)
  · cases impossible
  · exact teardown2_visits k c q clearable here size

theorem memTableTeardown_visits (k : Kernel) (t : Word) (clearable : Clearable k pos rank)
    (root : pos t = some []) : memTableTeardown k t = runEntries (visits k.mem 4 t) k := by
  refine teardownLoop_visits 3 _ false t [] root rfl (by simp) ?_ _ (List.nodup_finRange 512) k
    clearable
  rintro k c q clearable (impossible | ⟨here, size⟩)
  · cases impossible
  · exact teardown1_visits k c q clearable here size

/-- mem_table_teardown tears down valid entries of the tree, each once, and all of them if it
succeeds. -/
theorem memTableTeardown_torn (k k' : Kernel) (t : Word) (err : KernErr)
    (clearable : Clearable k pos rank) (root : pos t = some [])
    (done : memTableTeardown k t = .ok (err, k')) :
    ∃ gone, Torn k k' rank gone ∧
      (∀ p i, (p, i) ∈ gone → ∃ r, r.length ≤ 3 ∧ node nav k.mem t r = some p ∧
        mmuIsValid (k.mem p i) = true) ∧
      (err = .ok → ∀ r p i, r.length ≤ 3 → node nav k.mem t r = some p →
        mmuIsValid (k.mem p i) = true → (p, i) ∈ gone) := by
  rw [memTableTeardown_visits k t clearable root] at done
  have user (p : Word) (i : Idx) (member : (p, i) ∈ visits k.mem 4 t) : rank p = none := by
    obtain ⟨r, short, found, _⟩ := (mem_visits ..).mp member
    exact clearable.user p r (clearable.shaped.typed.node_pos t p r root (by omega) found)
  obtain ⟨gone, rest, split, whole, torn⟩ := runEntries_torn clearable.ranked _
    (visits_nodup clearable.shaped root 4 (by simp)) user err done
  refine ⟨gone, torn, fun p i member => ?_, fun fine r p i short found valid => ?_⟩
  · have visited : (p, i) ∈ visits k.mem 4 t := by
      rw [split]
      exact List.mem_append_left _ member
    obtain ⟨r, short, found, valid⟩ := (mem_visits ..).mp visited
    exact ⟨r, by omega, found, valid⟩
  · have visited : (p, i) ∈ visits k.mem 4 t :=
      (mem_visits ..).mpr ⟨r, by omega, found, valid⟩
    rw [split, whole fine, List.append_nil] at visited
    exact visited

end Flatten

end Anthill
