import Anthill.Teardown
import Anthill.PageOwnership

set_option autoImplicit false

namespace Anthill

open Radix

-- What mem_table_teardown does with a page: read or write an entry of it, or free it.
inductive PageEvent where
  | touched (page : Word)
  | freed (page : Word)
deriving DecidableEq, Repr

structure Logged where
  result : Except Halt (KernErr × Kernel)
  events : List PageEvent

def Logged.whenOk (first : Logged) (next : Kernel → Logged) : Logged where
  result := Anthill.whenOk first.result fun k => (next k).result
  events := first.events ++ match first.result with
    | .ok (.ok, k) => (next k).events
    | _ => []

def Logged.touch (k : Kernel) (level : Word) : Logged := ⟨.ok (.ok, k), [.touched level]⟩

-- The functions of mem_table_teardown again, with what they touch and free.
def entryLogged (k : Kernel) (level : Word) (i : Idx) : Logged :=
  let freed := mmuMarkFreed (k.mem level i)
  let k := k.write level i freed.2
  if freed.1 = 0 then
    let page := mmuGetVaddr (k.mem level i)
    ((Logged.touch k level).whenOk fun k => ⟨memKernelFreePage k page, [.freed page]⟩).whenOk fun k =>
      Logged.touch (k.write level i 0) level
  else Logged.touch k level

def loopLogged (round : Kernel → Idx → Logged) : List Idx → Kernel → Logged
  | [], k => ⟨.ok (.ok, k), []⟩
  | i :: idx, k => (round k i).whenOk (loopLogged round idx)

def roundLogged (below : Word → Kernel → Logged) (blocks : Bool) (level : Word) (k : Kernel) (i : Idx) : Logged :=
  (Logged.touch k level).whenOk fun k =>
    if !mmuIsValid (k.mem level i) then ⟨.ok (.ok, k), []⟩
    else if blocks && mmuIsBlock (k.mem level i) then entryLogged k level i
    else (below (mmuGetVaddr (k.mem level i)) k).whenOk fun k => entryLogged k level i

def logged3 (level3 : Word) : Kernel → Logged :=
  loopLogged (roundLogged (fun _ k => ⟨.ok (.ok, k), []⟩) false level3) (List.finRange 512)

def logged2 (level2 : Word) : Kernel → Logged :=
  loopLogged (roundLogged logged3 true level2) (List.finRange 512)

def logged1 (level1 : Word) : Kernel → Logged :=
  loopLogged (roundLogged logged2 true level1) (List.finRange 512)

def memTableTeardownLogged (k : Kernel) (table : Word) : Logged :=
  loopLogged (roundLogged logged1 false table) (List.finRange 512) k

@[simp] theorem touch_result (k : Kernel) (level : Word) : (Logged.touch k level).result = .ok (.ok, k) := rfl

@[simp] theorem whenOk_result (first : Logged) (next : Kernel → Logged) :
    (first.whenOk next).result = whenOk first.result fun k => (next k).result := rfl

theorem entryLogged_result (k : Kernel) (level : Word) (i : Idx) :
    (entryLogged k level i).result = teardownEntry k level i := by
  unfold entryLogged teardownEntry
  simp only []
  split_ifs <;> rfl

theorem loopLogged_result (round : Kernel → Idx → Logged) (plain : Kernel → Idx → Except Halt (KernErr × Kernel))
    (same : ∀ k i, (round k i).result = plain k i) (idx : List Idx) (k : Kernel) :
    (loopLogged round idx k).result = teardownLoop plain idx k := by
  induction idx generalizing k with
  | nil => rfl
  | cons i idx ih =>
    rw [loopLogged, teardownLoop, whenOk_result, same]
    exact whenOk_congr _ _ _ fun k _ => ih k

theorem roundLogged_result (below : Word → Kernel → Logged) (plain : Word → Kernel → Except Halt (KernErr × Kernel))
    (same : ∀ c k, (below c k).result = plain c k) (blocks : Bool) (level : Word) (k : Kernel) (i : Idx) :
    (roundLogged below blocks level k i).result = teardownRound plain blocks level k i := by
  unfold roundLogged teardownRound
  simp only [whenOk_result, touch_result, whenOk]
  split_ifs
  · rfl
  · exact entryLogged_result k level i
  · rw [whenOk_result, same]
    exact whenOk_congr _ _ _ fun k _ => entryLogged_result k level i

/-- The record changes nothing. -/
theorem memTableTeardownLogged_result (k : Kernel) (table : Word) :
    (memTableTeardownLogged k table).result = memTableTeardown k table := by
  have same3 (c : Word) (k : Kernel) : (logged3 c k).result = teardown3 c k :=
    loopLogged_result _ _ (roundLogged_result _ _ (fun _ _ => rfl) false c) _ k
  have same2 (c : Word) (k : Kernel) : (logged2 c k).result = teardown2 c k :=
    loopLogged_result _ _ (roundLogged_result _ _ same3 true c) _ k
  have same1 (c : Word) (k : Kernel) : (logged1 c k).result = teardown1 c k :=
    loopLogged_result _ _ (roundLogged_result _ _ same2 true c) _ k
  exact loopLogged_result _ _ (roundLogged_result _ _ same1 false table) _ k

/-- A table of a process that shares nothing: a tree without blocks whose entries count no copies, in pages
that the kernel's tables map. `pos` gives each table and data page the indices that lead to it. -/
structure UnsharedTree (k : Kernel) (pos : Pos) (t : Word) : Prop where
  root : pos t = some []
  typed : Typed nav 4 k.mem pos
  table : ∀ p q i, pos p = some q → q.length = 1 ∨ q.length = 2 → mmuIsValid (k.mem p i) = true →
    mmuIsBlock (k.mem p i) = false
  unshared : ∀ p q i, pos p = some q → q.length ≤ 3 → mmuIsValid (k.mem p i) = true → refCount (k.mem p i) = 0
  backed : ∀ p q, pos p = some q → Backed k p
  user : ∀ p q, pos p = some q → ¬ KernelTable k p

-- What the teardown of `c` and the `d` levels from it down does, as the entries stand before it.
def eventsAt (m : Mem) (below : Word → List PageEvent) (c : Word) (j : Idx) : List PageEvent :=
  if mmuIsValid (m c j) then
    .touched c :: below (mmuGetVaddr (m c j)) ++
      [.touched c, .freed (mmuGetVaddr (m c j)), .touched c]
  else [.touched c]

def events (m : Mem) : Nat → Word → List PageEvent
  | 0, _ => []
  | d + 1, c => (List.finRange 512).flatMap (eventsAt m (events m d) c)

/-- The pages behind the indices `rounds` of the table `c` are torn down. -/
structure Swept (k k' : Kernel) (pos : Pos) (c : Word) (q : List Idx) (rounds : List Idx) : Prop where
  wf : KernelWf k'
  tables : ∀ p, KernelTable k' p ↔ KernelTable k p
  row : ∀ j, k'.mem c j = if j ∈ rounds ∧ mmuIsValid (k.mem c j) = true then 0 else k.mem c j
  others : ∀ p, ¬ KernelTable k p → p ≠ c →
    (∀ j r, j ∈ rounds → pos p = some r → ¬ q ++ [j] <+: r) → k'.mem p = k.mem p
  backed : ∀ p, Backed k p → (∀ j r, j ∈ rounds → pos p = some r → ¬ q ++ [j] <+: r) → Backed k' p

/-- The pages from the position `q` down stand as in `m`. -/
def Standing (k : Kernel) (m : Mem) (pos : Pos) (q : List Idx) : Prop :=
  ∀ p r, pos p = some r → q <+: r → k.mem p = m p ∧ Backed k p

/-- A loop over the table `d` levels above the data pages tears down what stands below it. -/
def Sweeps (m : Mem) (pos : Pos) (d : Nat) (loop : Word → Kernel → Logged) : Prop :=
  ∀ k c q, KernelWf k → (∀ p r, pos p = some r → ¬ KernelTable k p) → pos c = some q → q.length + d = 4 →
    Standing k m pos q → ∃ k' rounds, loop c k = ⟨.ok (.ok, k'), events m d c⟩ ∧ Swept k k' pos c q rounds ∧
      (0 < d → ∀ j, j ∈ rounds)

theorem Swept.nothing {k : Kernel} {pos : Pos} {c : Word} {q : List Idx} (wf : KernelWf k) : Swept k k pos c q [] where
  wf := wf
  tables _ := Iff.rfl
  row _ := (if_neg fun both => List.not_mem_nil both.1).symm
  others _ _ _ _ := rfl
  backed _ backed _ := backed

theorem Swept.cons {k k₁ k' : Kernel} {pos : Pos} {c : Word} {q : List Idx} {j : Idx} {rounds : List Idx}
    (first : Swept k k₁ pos c q [j]) (rest : Swept k₁ k' pos c q rounds) (new : j ∉ rounds) :
    Swept k k' pos c q (j :: rounds) := by
  refine ⟨rest.wf, fun p => (rest.tables p).trans (first.tables p), fun i => ?_, fun p user other away => ?_,
    fun p backed away => ?_⟩
  · rw [rest.row, first.row]
    by_cases here : i = j
    · subst here
      simp [new]
    · simp [here]
  · rw [rest.others p (fun table => user ((first.tables p).mp table)) other fun i r member =>
      away i r (List.mem_cons_of_mem _ member)]
    exact first.others p user other fun i r member => away i r (List.mem_cons.mpr (.inl (List.mem_singleton.mp member)))
  · refine rest.backed p (first.backed p backed fun i r member => ?_) fun i r member =>
      away i r (List.mem_cons_of_mem _ member)
    exact away i r (List.mem_cons.mpr (.inl (List.mem_singleton.mp member)))

theorem entryLogged_unshared (k k' : Kernel) (level : Word) (i : Idx) (zero : refCount (k.mem level i) = 0)
    (done : memKernelFreePage k (mmuGetVaddr (k.mem level i)) = .ok (.ok, k')) :
    entryLogged k level i = ⟨.ok (.ok, k'.write level i 0),
      [.touched level, .freed (mmuGetVaddr (k.mem level i)), .touched level]⟩ := by
  have same : k.write level i (mmuMarkFreed (k.mem level i)).2 = k := by
    rw [mmuMarkFreed_zero _ zero, Kernel.write_self]
  simp [entryLogged, same, mmuMarkFreed_fst, zero, Logged.whenOk, Logged.touch, whenOk, done]

section Sweep

variable {m : Mem} {pos : Pos} (typed : Typed nav 4 m pos)
  (table : ∀ p q i, pos p = some q → q.length = 1 ∨ q.length = 2 → mmuIsValid (m p i) = true →
    mmuIsBlock (m p i) = false)
  (unshared : ∀ p q i, pos p = some q → q.length ≤ 3 → mmuIsValid (m p i) = true → refCount (m p i) = 0)
  (d : Nat) (below : Word → Kernel → Logged)
  (spec : Sweeps m pos d below)
  (blocks : Bool) (c : Word) (q : List Idx) (here : pos c = some q) (size : q.length + d = 3)
  (upper : blocks = true → q.length = 1 ∨ q.length = 2)

include typed table unshared spec here size upper

-- One round of a loop: the pages below the entry first, then the page that it names.
theorem roundLogged_sweeps (k : Kernel) (wf : KernelWf k) (user : ∀ p r, pos p = some r → ¬ KernelTable k p)
    (j : Idx) (entry : k.mem c j = m c j) (under : Standing k m pos (q ++ [j])) :
    ∃ k', roundLogged below blocks c k j = ⟨.ok (.ok, k'), eventsAt m (events m d) c j⟩ ∧
      Swept k k' pos c q [j] := by
  cases valid : mmuIsValid (m c j) with
  | false =>
    refine ⟨k, by simp [roundLogged, Logged.whenOk, Logged.touch, whenOk, entry, valid, eventsAt], wf,
      fun _ => Iff.rfl, fun i => ?_, fun _ _ _ _ => rfl, fun _ backed _ => backed⟩
    rw [if_neg]
    rintro ⟨member, there⟩
    rw [List.mem_singleton.mp member, entry, valid] at there
    cases there
  | true =>
    obtain ⟨a, named⟩ : ∃ a, mmuGetVaddr (m c j) = a := ⟨_, rfl⟩
    have child : pos a = some (q ++ [j]) := typed.child c q j a here (by omega) (named ▸ nav_of_valid _ valid)
    have noBlock : (blocks && mmuIsBlock (m c j)) = false := by
      cases blocks with
      | false => rfl
      | true => exact table c q j here (upper rfl) valid
    obtain ⟨k₁, rounds, ran, swept, -⟩ := spec k a (q ++ [j]) wf user child (by simpa using by omega) under
    have other : c ≠ a := by
      rintro rfl
      rw [here] at child
      simpa using congrArg List.length (Option.some.inj child)
    have entry₁ : k₁.mem c j = m c j := by
      rw [swept.others c (user c q here) other fun i r _ at' within => ?_, entry]
      rw [here] at at'
      obtain rfl := Option.some.inj at'
      simpa using within.length_le
    have zero := unshared c q j here (by omega) valid
    have backed := swept.backed a (under a _ child (List.prefix_refl _)).2 fun i r _ at' within => by
      rw [child] at at'
      obtain rfl := Option.some.inj at'
      simpa using within.length_le
    obtain ⟨k₂, done, freed⟩ := memKernelFreePage_spec k₁ swept.wf a backed
      fun ours => user a _ child ((swept.tables a).mp ours)
    have notTable : ¬ KernelTable k₂ c := fun ours => user c q here ((swept.tables c).mp ((freed.tables c).mp ours))
    have same := sameKernel_put k₂ c j 0 notTable
    refine ⟨k₂.write c j 0, ?_, same.wf freed.wf,
      fun p => (same.kernelTable p).trans ((freed.tables p).trans (swept.tables p)), fun i => ?_, fun p ours away apart => ?_,
      fun p held apart => ?_⟩
    · have result := entryLogged_unshared k₁ k₂ c j (by rw [entry₁, zero]) (by rw [entry₁, named, done])
      rw [entry₁, named] at result
      simp [roundLogged, Logged.whenOk, Logged.touch, whenOk, entry, valid, noBlock, named, ran, result, eventsAt]
    · by_cases i_eq : i = j
      · subst i_eq
        simp [entry, valid]
      · rw [if_neg fun both => i_eq (List.mem_singleton.mp both.1), Kernel.write_mem,
          put_other _ _ _ _ _ _ (.inr i_eq), freed.content c fun ours => user c q here ((swept.tables c).mp ours)]
        refine congrFun (swept.others c (user c q here) other fun i r _ at' within => ?_) i
        rw [here] at at'
        obtain rfl := Option.some.inj at'
        simpa using within.length_le
    · rw [Kernel.write_mem, put_page_other _ _ _ _ _ away,
        freed.content p fun table => ours ((swept.tables p).mp table)]
      refine swept.others p ours ?_ fun i r _ at' within => ?_
      · rintro rfl
        exact apart j _ (List.mem_singleton_self j) child (List.prefix_refl _)
      · exact apart j r (List.mem_singleton_self j) at' ((List.prefix_append _ _).trans within)
    · refine same.backs (freed.backed p (swept.backed p held fun i r _ at' within => ?_) ?_)
      · exact apart j r (List.mem_singleton_self j) at' ((List.prefix_append _ _).trans within)
      · rintro rfl
        exact apart j _ (List.mem_singleton_self j) child (List.prefix_refl _)

theorem loopLogged_sweeps (rounds : List Idx) (distinct : rounds.Nodup) (k : Kernel) (wf : KernelWf k)
    (user : ∀ p r, pos p = some r → ¬ KernelTable k p) (entries : ∀ j, j ∈ rounds → k.mem c j = m c j)
    (under : ∀ j, j ∈ rounds → Standing k m pos (q ++ [j])) :
    ∃ k', loopLogged (roundLogged below blocks c) rounds k =
        ⟨.ok (.ok, k'), rounds.flatMap (eventsAt m (events m d) c)⟩ ∧ Swept k k' pos c q rounds := by
  induction rounds generalizing k with
  | nil => exact ⟨k, rfl, .nothing wf⟩
  | cons j rounds ih =>
    rw [List.nodup_cons] at distinct
    obtain ⟨k₁, ran, first⟩ := roundLogged_sweeps typed table unshared d below spec blocks c q here size upper k wf
      user j (entries j List.mem_cons_self) (under j List.mem_cons_self)
    have later (i : Idx) (member : i ∈ rounds) : i ≠ j := by
      rintro rfl
      exact distinct.1 member
    -- The pages behind another index are not below this one.
    have apart (i : Idx) (member : i ∈ rounds) (p : Word) (r : List Idx) (at' : pos p = some r)
        (within : q ++ [i] <+: r) (j' : Idx) (r' : List Idx) (only : j' ∈ [j]) (again : pos p = some r') :
        ¬ q ++ [j'] <+: r' := by
      intro both
      rw [at'] at again
      obtain rfl := Option.some.inj again
      have path := List.prefix_of_prefix_length_le within both (by simp)
      have last := path.eq_of_length (by simp)
      rw [List.append_cancel_left_eq, List.cons.injEq] at last
      exact later i member (last.1.trans (List.mem_singleton.mp only))
    obtain ⟨k', rest, swept⟩ := ih distinct.2 k₁ first.wf (fun p r at' ours => user p r at' ((first.tables p).mp ours))
      (fun i member => by
        rw [first.row, if_neg fun both => later i member (List.mem_singleton.mp both.1),
          entries i (List.mem_cons_of_mem _ member)])
      (fun i member p r at' within => by
        obtain ⟨row, backed⟩ := under i (List.mem_cons_of_mem _ member) p r at' within
        have other : p ≠ c := by
          rintro rfl
          rw [here] at at'
          obtain rfl := Option.some.inj at'
          simpa using within.length_le
        exact ⟨(first.others p (user p r at') other (apart i member p r at' within)).trans row,
          first.backed p backed (apart i member p r at' within)⟩)
    refine ⟨k', ?_, first.cons swept distinct.1⟩
    simp [loopLogged, Logged.whenOk, whenOk, ran, rest]

end Sweep

/-- The pages that are freed are those that the walks below the table come to. -/
theorem mem_events_freed (m : Mem) (d : Nat) (c p : Word) :
    .freed p ∈ events m d c ↔ ∃ r, r ≠ [] ∧ r.length ≤ d ∧ node nav m c r = some p := by
  induction d generalizing c with
  | zero =>
    refine ⟨fun member => (by cases member), ?_⟩
    rintro ⟨r, some, short, -⟩
    exact absurd (List.length_eq_zero_iff.mp (by omega)) some
  | succ d ih =>
    have round (j : Idx) : .freed p ∈ eventsAt m (events m d) c j ↔
        ∃ a, nav (m c j) = some a ∧ (a = p ∨ .freed p ∈ events m d a) := by
      unfold eventsAt
      cases valid : mmuIsValid (m c j) with
      | false => simp [nav_of_invalid _ valid]
      | true => simp [nav_of_valid _ valid, or_comm, eq_comm]
    simp only [events, List.mem_flatMap, List.mem_finRange, true_and, round]
    constructor
    · rintro ⟨j, a, named, rfl | deeper⟩
      · exact ⟨[j], by simp, by simp, by rw [node_cons, named]; rfl⟩
      · obtain ⟨r, -, short, found⟩ := (ih a).mp deeper
        exact ⟨j :: r, by simp, by simpa using short, by rw [node_cons, named]; exact found⟩
    · rintro ⟨r, some, short, found⟩
      cases r with
      | nil => exact absurd rfl some
      | cons j r =>
        rw [node_cons] at found
        obtain ⟨a, named, found⟩ := Option.bind_eq_some_iff.mp found
        refine ⟨j, a, named, ?_⟩
        by_cases last : r = []
        · subst last
          exact .inl (Option.some.inj found)
        · exact .inr ((ih a).mpr ⟨r, last, by simpa using short, found⟩)

/-- No page is touched after it has been freed, or freed again. -/
def Orderly (log : List PageEvent) : Prop :=
  log.Pairwise fun e e' => ∀ p, e = .freed p → e' ≠ .touched p ∧ e' ≠ .freed p

theorem Orderly.count_freed {log : List PageEvent} (orderly : Orderly log) (p : Word) : log.count (.freed p) ≤ 1 := by
  induction log with
  | nil => exact Nat.zero_le 1
  | cons e log ih =>
    obtain ⟨later, rest⟩ := List.pairwise_cons.mp orderly
    by_cases here : e = .freed p
    · have gone : .freed p ∉ log := fun member => (later _ member p here).2 rfl
      rw [here, List.count_cons_self, List.count_eq_zero_of_not_mem gone]
    · rw [List.count_cons_of_ne here]
      exact ih rest

section Tree

variable {k : Kernel} {pos : Pos} {t : Word} (tree : UnsharedTree k pos t)

include tree

theorem UnsharedTree.sweeps (d : Nat) (below : Word → Kernel → Logged) (spec : Sweeps k.mem pos d below)
    (blocks : Bool) (upper : blocks = true → d = 1 ∨ d = 2) :
    Sweeps k.mem pos (d + 1) fun c => loopLogged (roundLogged below blocks c) (List.finRange 512) := by
  intro k' c q wf user here size standing
  obtain ⟨k'', ran, swept⟩ := loopLogged_sweeps tree.typed tree.table tree.unshared d below spec blocks c q here
    (by omega) (fun looks => by have := upper looks; omega) (List.finRange 512) (List.nodup_finRange 512) k' wf user
    (fun j _ => congrFun (standing c q here (List.prefix_refl q)).1 j)
    fun j _ p r at' within => standing p r at' ((List.prefix_append q [j]).trans within)
  exact ⟨k'', _, ran, swept, fun _ j => List.mem_finRange j⟩

theorem memTableTeardownLogged_sweeps (wf : KernelWf k) :
    ∃ k' rounds, memTableTeardownLogged k t = ⟨.ok (.ok, k'), events k.mem 4 t⟩ ∧ Swept k k' pos t [] rounds ∧
      ∀ j, j ∈ rounds := by
  have level4 : Sweeps k.mem pos 0 fun _ k => ⟨.ok (.ok, k), []⟩ :=
    fun k c q wf _ _ _ _ => ⟨k, [], rfl, .nothing wf, fun impossible => absurd impossible (Nat.lt_irrefl 0)⟩
  have level3 : Sweeps k.mem pos 1 logged3 := tree.sweeps 0 _ level4 false (by simp)
  have level2 : Sweeps k.mem pos 2 logged2 := tree.sweeps 1 _ level3 true (by simp)
  have level1 : Sweeps k.mem pos 3 logged1 := tree.sweeps 2 _ level2 true (by simp)
  obtain ⟨k', rounds, ran, swept, all⟩ := tree.sweeps 3 _ level1 false (by simp) k t [] wf tree.user tree.root rfl
    fun p r at' _ => ⟨rfl, tree.backed p r at'⟩
  exact ⟨k', rounds, ran, swept, all (by decide)⟩

-- Every page in the record of a round is the table, or below the entry that the round is for.
theorem UnsharedTree.eventsAt_below (d : Nat) (c : Word) (q : List Idx) (here : pos c = some q)
    (size : q.length + (d + 1) = 4) (j : Idx) (e : PageEvent) (member : e ∈ eventsAt k.mem (events k.mem d) c j) :
    e = .touched c ∨ ∃ p r, (e = .touched p ∨ e = .freed p) ∧ pos p = some r ∧ q ++ [j] <+: r := by
  induction d generalizing c q j with
  | zero =>
    unfold eventsAt at member
    split_ifs at member with valid
    · have child := tree.typed.child c q j _ here (by omega) (nav_of_valid _ valid)
      simp only [events, List.cons_append, List.nil_append, List.mem_cons, List.not_mem_nil, or_false] at member
      rcases member with rfl | rfl | rfl | rfl
      · exact .inl rfl
      · exact .inl rfl
      · exact .inr ⟨_, _, .inr rfl, child, List.prefix_refl _⟩
      · exact .inl rfl
    · exact .inl (List.mem_singleton.mp member)
  | succ d ih =>
    unfold eventsAt at member
    split_ifs at member with valid
    · have child := tree.typed.child c q j _ here (by omega) (nav_of_valid _ valid)
      simp only [List.cons_append, List.mem_cons, List.mem_append, List.not_mem_nil, or_false] at member
      rcases member with rfl | deeper | rfl | rfl | rfl
      · exact .inl rfl
      · obtain ⟨i, -, inside⟩ := List.mem_flatMap.mp deeper
        rcases ih _ _ child (by simpa using by omega) i inside with rfl | ⟨p, r, which, at', within⟩
        · exact .inr ⟨_, _, .inl rfl, child, List.prefix_refl _⟩
        · exact .inr ⟨p, r, which, at', (List.prefix_append _ [i]).trans within⟩
      · exact .inl rfl
      · exact .inr ⟨_, _, .inr rfl, child, List.prefix_refl _⟩
      · exact .inl rfl
    · exact .inl (List.mem_singleton.mp member)

-- A page that a round frees is behind the round's entry.
theorem UnsharedTree.freed_below (d : Nat) (c : Word) (q : List Idx) (here : pos c = some q)
    (size : q.length + (d + 1) = 4) (j : Idx) (p : Word) (member : .freed p ∈ eventsAt k.mem (events k.mem d) c j) :
    ∃ r, pos p = some r ∧ q ++ [j] <+: r := by
  rcases tree.eventsAt_below d c q here size j _ member with impossible | ⟨p', r, which, at', within⟩
  · cases impossible
  · rcases which with impossible | same
    · cases impossible
    · cases same
      exact ⟨r, at', within⟩

theorem UnsharedTree.orderly (d : Nat) (c : Word) (q : List Idx) (here : pos c = some q) (size : q.length + d = 4) :
    Orderly (events k.mem d c) := by
  induction d generalizing c q with
  | zero => exact List.Pairwise.nil
  | succ d ih =>
    have above (p : Word) (r : List Idx) (at' : pos p = some r) (j : Idx) (within : q ++ [j] <+: r) : c ≠ p := by
      rintro rfl
      rw [here] at at'
      obtain rfl := Option.some.inj at'
      simpa using within.length_le
    refine List.pairwise_flatMap.mpr ⟨fun j _ => ?_, (List.nodup_finRange 512).imp fun {j j'} different => ?_⟩
    · unfold eventsAt
      split_ifs with valid
      · have child := tree.typed.child c q j _ here (by omega) (nav_of_valid _ valid)
        refine List.pairwise_append.mpr ⟨List.pairwise_cons.mpr ⟨fun _ _ _ impossible => (by cases impossible),
          ih _ _ child (by simpa using by omega)⟩, by simp [(above _ _ child j (List.prefix_refl _))], ?_⟩
        rintro e member e' later p rfl
        rcases List.mem_cons.mp member with impossible | deeper
        · cases impossible
        · obtain ⟨d', rfl⟩ : ∃ d', d = d' + 1 := by
            cases d with
            | zero => cases deeper
            | succ d' => exact ⟨d', rfl⟩
          obtain ⟨i, -, inside⟩ := List.mem_flatMap.mp deeper
          obtain ⟨r, at', within⟩ := tree.freed_below d' _ _ child (by simpa using by omega) i p inside
          have notTable := above p r at' j ((List.prefix_append _ [i]).trans within)
          have notChild : mmuGetVaddr (k.mem c j) ≠ p := by
            rintro rfl
            rw [child] at at'
            obtain rfl := Option.some.inj at'
            simpa using within.length_le
          simp only [List.mem_cons, List.not_mem_nil, or_false] at later
          rcases later with rfl | rfl | rfl <;> simp [notTable, notChild]
      · exact List.pairwise_singleton _ _
    · rintro e member e' later p rfl
      obtain ⟨r, at', within⟩ := tree.freed_below d c q here size j p member
      rcases tree.eventsAt_below d c q here size j' e' later with rfl | ⟨p', r', which, again, within'⟩
      · simp [above p r at' j within]
      · have other : p' ≠ p := by
          rintro rfl
          rw [at'] at again
          obtain rfl := Option.some.inj again
          have path := (List.prefix_of_prefix_length_le within within' (by simp)).eq_of_length (by simp)
          rw [List.append_cancel_left_eq, List.cons.injEq] at path
          exact different path.1
        rcases which with rfl | rfl <;> simp [other]

/-- mem_table_teardown of a process that shares nothing frees each of its pages once, and touches none of them
after that. The top-level entries that named a table are zero then, and the others are as they were. -/
theorem memTableTeardown_unshared (wf : KernelWf k) :
    ∃ k' log, memTableTeardown k t = .ok (.ok, k') ∧ memTableTeardownLogged k t = ⟨.ok (.ok, k'), log⟩ ∧
      (∀ p, log.count (.freed p) ≤ 1) ∧
      (∀ p, .freed p ∈ log ↔ ∃ r, r ≠ [] ∧ r.length ≤ 4 ∧ node nav k.mem t r = some p) ∧
      (∀ before after p, log = before ++ .freed p :: after → .touched p ∉ after) ∧
      ∀ i, k'.mem t i = if mmuIsValid (k.mem t i) then 0 else k.mem t i := by
  obtain ⟨k', rounds, ran, swept, all⟩ := memTableTeardownLogged_sweeps tree wf
  have order := tree.orderly 4 t [] tree.root rfl
  refine ⟨k', events k.mem 4 t, ?_, ran, fun p => ?_, mem_events_freed k.mem 4 t, fun before after p split later => ?_,
    fun i => ?_⟩
  · rw [← memTableTeardownLogged_result, ran]
  · exact order.count_freed p
  · rw [split] at order
    exact ((List.pairwise_cons.mp (List.pairwise_append.mp order).2.1).1 _ later p rfl).1 rfl
  · rw [swept.row]
    simp [all i]

end Tree

-- A machine whose user pages `pages` are listed with their indices holds an unshared tree.
theorem machine_unshared (cells : List Cell) (free : List Nat) (pages : Tables)
    (inside : ∀ n, n ∈ free → 4 ≤ n ∧ n < 384) (small : ∀ cell, cell ∈ cells → cell.page < 384)
    (listed : ∀ page, page ∈ pages → 4 ≤ page.1 ∧ page.1 < 384 ∧ page.1 ∉ free ∧ page.2.length ≤ 4)
    (named : ∀ cell, cell ∈ cells → ∀ page, page ∈ pages → cell.page = page.1 → mmuIsValid cell.entry = true →
      (page.2.length < 4 → posOf pages (mmuGetVaddr cell.entry) = some (page.2 ++ [cell.idx])) ∧
      (page.2.length = 1 ∨ page.2.length = 2 → mmuIsBlock cell.entry = false) ∧
      (page.2.length ≤ 3 → refCount cell.entry = 0))
    (t : Word) (root : posOf pages t = some []) : UnsharedTree (machine cells free) (posOf pages) t := by
  have user (p : Word) (q : List Idx) (position : posOf pages p = some q) : ¬ isKernelPage p = true := by
    obtain ⟨n, member, rfl⟩ := posOf_some pages p q position
    obtain ⟨low, high, _⟩ := listed _ member
    have away (m : Nat) (less : m < 4) (same : poolVa n = poolVa m) : False := by
      have equal := poolVa_inj n m (by rw [managed_eq]; omega) (by rw [managed_eq]; omega) same
      omega
    rw [isKernelPage, decide_eq_true_eq]
    rintro (same | same | same | same)
    · exact away 0 (by decide) same
    · exact away 1 (by decide) same
    · exact away 2 (by decide) same
    · exact away 3 (by decide) same
  have cell (p : Word) (q : List Idx) (i : Idx) (position : posOf pages p = some q)
      (valid : mmuIsValid ((machine cells free).mem p i) = true) :
      (q.length < 4 → posOf pages (mmuGetVaddr ((machine cells free).mem p i)) = some (q ++ [i])) ∧
      (q.length = 1 ∨ q.length = 2 → mmuIsBlock ((machine cells free).mem p i) = false) ∧
      (q.length ≤ 3 → refCount ((machine cells free).mem p i) = 0) := by
    have other := user p q position
    obtain ⟨n, member, rfl⟩ := posOf_some pages p q position
    rw [machine_user cells free _ i other] at valid ⊢
    rcases cellEntry_cases cells n i (listed _ member).2.1 small with zero | there
    · rw [zero, isValid_zero] at valid
      cases valid
    · exact named _ there _ member rfl valid
  refine ⟨root, ⟨fun p q position => ?_, fun p q i c position short found => ?_⟩,
    fun p q i position upper valid => (cell p q i position valid).2.1 upper,
    fun p q i position short valid => (cell p q i position valid).2.2 short, fun p q position => ?_,
    fun p q position => ?_⟩
  · obtain ⟨n, member, _⟩ := posOf_some pages p q position
    exact (listed _ member).2.2.2
  · obtain ⟨valid, rfl⟩ := (nav_some _ _).mp found
    exact (cell p q i position valid).1 short
  · obtain ⟨n, member, rfl⟩ := posOf_some pages p q position
    exact machine_backed cells free inside n (listed _ member).2.1 (listed _ member).2.2.1
  · rw [machine_kernelTable]
    exact user p q position

-- The page of `onePage`, and bits in an entry of the top-level table that is not valid.
def strayBits : List Cell := ⟨4, 5, 2⟩ :: onePage 0

def onePagePages : Tables := (8, [0, 0, 1, 0]) :: onePageTables

theorem strayBits_unshared : UnsharedTree (machine strayBits []) (posOf onePagePages) (poolVa 4) :=
  machine_unshared strayBits [] onePagePages (by decide) (by decide +kernel) (by decide +kernel) (by decide +kernel)
    (poolVa 4) (by decide +kernel)

theorem teardown_strayBits : ∃ k' log, memTableTeardown (machine strayBits []) (poolVa 4) = .ok (.ok, k') ∧
    memTableTeardownLogged (machine strayBits []) (poolVa 4) = ⟨.ok (.ok, k'), log⟩ ∧
    (∀ p, log.count (.freed p) ≤ 1) ∧
    (∀ p, .freed p ∈ log ↔
      ∃ r, r ≠ [] ∧ r.length ≤ 4 ∧ node nav (machine strayBits []).mem (poolVa 4) r = some p) ∧
    (∀ before after p, log = before ++ .freed p :: after → .touched p ∉ after) ∧
    ∀ i, k'.mem (poolVa 4) i =
      if mmuIsValid ((machine strayBits []).mem (poolVa 4) i) then 0 else (machine strayBits []).mem (poolVa 4) i :=
  memTableTeardown_unshared strayBits_unshared (machine_wf strayBits [] (by decide))

theorem teardown_keeps_strayBits : ¬ ∀ (k : Kernel) (pos : Pos) (t : Word), KernelWf k → UnsharedTree k pos t →
    ∃ k', memTableTeardown k t = .ok (.ok, k') ∧ ∀ i, k'.mem t i = 0 := by
  intro claim
  have wf := machine_wf strayBits [] (by decide)
  obtain ⟨k', done, zero⟩ := claim (machine strayBits []) _ _ wf strayBits_unshared
  obtain ⟨k₁, rounds, ran, swept, -⟩ := memTableTeardownLogged_sweeps strayBits_unshared wf
  have same := memTableTeardownLogged_result (machine strayBits []) (poolVa 4)
  rw [ran, done, Except.ok.injEq, Prod.mk.injEq] at same
  obtain ⟨-, rfl⟩ := same
  have stray := swept.row 5
  rw [zero 5] at stray
  have invalid : mmuIsValid ((machine strayBits []).mem (poolVa 4) 5) = false := by decide +kernel
  have bits : (machine strayBits []).mem (poolVa 4) 5 ≠ 0 := by decide +kernel
  simp only [invalid, Bool.false_eq_true, and_false, if_false] at stray
  exact bits stray.symm

end Anthill
