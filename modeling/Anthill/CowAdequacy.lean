import Anthill.DataAbort
import Anthill.PageOwnership
import Anthill.Run
import Mathlib.Data.Finset.Card
import Mathlib.Data.Finset.Option
import Mathlib.Data.Finset.Union
import Mathlib.Data.Fintype.Basic

set_option autoImplicit false

namespace Anthill

open Radix

-- An entry without its reference field.
def entryBody (entry : Word) : Word := entry &&& ~~~((0xf : Word) <<< attRefOff)

theorem entryBody_setRef (entry ref : Word) (small : ref.toNat < 16) :
    entryBody (setRef entry ref) = entryBody entry := by
  have low : ref &&& 0xf = ref := by
    apply BitVec.eq_of_toNat_eq
    rw [BitVec.toNat_and, show (0xf : Word).toNat = 2 ^ 4 - 1 from rfl,
      Nat.and_two_pow_sub_one_eq_mod]
    omega
  have inside : (ref <<< attRefOff) &&& ~~~((0xf : Word) <<< attRefOff) = 0 := by
    rw [← low, BitVec.shiftLeft_and_distrib, BitVec.and_assoc]
    simp
  unfold entryBody setRef
  rw [BitVec.and_or_distrib_right, inside, BitVec.and_assoc]
  simp

theorem entryBody_mmuMarkFreed (entry : Word) :
    entryBody (mmuMarkFreed entry).2 = entryBody entry := by
  have bound := refCount_bound entry
  simp only [mmuMarkFreed]
  split_ifs with positive
  · exact entryBody_setRef _ _ (by bv_omega)
  · rfl

-- A table page below the root `u`.
def Reaches (m : Mem) (u p : Word) : Prop :=
  ∃ r, 1 ≤ r.length ∧ r.length ≤ 3 ∧ node nav m u r = some p

-- The top-level tables of the live tasks.
def Sys.roots (s : Sys) : Finset Word :=
  Finset.univ.biUnion fun i => ((s.tasks i).map s.table).toFinset

theorem mem_roots (s : Sys) (u : Word) : u ∈ s.roots ↔ ∃ ptr, s.Live ptr ∧ s.table ptr = u := by
  simp only [Sys.roots, Finset.mem_biUnion, Finset.mem_univ, true_and, Option.mem_toFinset,
    Option.mem_map, Sys.Live]
  constructor
  · rintro ⟨i, ptr, there, same⟩
    exact ⟨ptr, ⟨i, there⟩, same⟩
  · rintro ⟨ptr, ⟨i, there⟩, same⟩
    exact ⟨i, ptr, there, same⟩

-- The roots are used through this lemma: a search through the task array is long.
attribute [irreducible] Sys.roots

open Classical in
noncomputable def sharers (m : Mem) (R : Finset Word) (p : Word) : Finset Word :=
  R.filter fun u => Reaches m u p

theorem mem_sharers (m : Mem) (R : Finset Word) (p u : Word) :
    u ∈ sharers m R p ↔ u ∈ R ∧ Reaches m u p := by
  simp [sharers]

theorem sharers_card_le (m : Mem) (R : Finset Word) (p : Word) : (sharers m R p).card ≤ R.card :=
  Finset.card_le_card fun u member => ((mem_sharers m R p u).mp member).1

/-- An entry of a table that `n` of the trees of `R` share counts at least `n - 1`. -/
def Adequate (m : Mem) (R : Finset Word) : Prop :=
  ∀ p i, mmuIsValid (m p i) = true → (sharers m R p).card ≤ (refCount (m p i)).toNat + 1

theorem sharers_mono (m m' : Mem) (R R' : Finset Word) (p : Word)
    (fewer : ∀ u, u ∈ R' → Reaches m' u p → u ∈ R ∧ Reaches m u p) :
    sharers m' R' p ⊆ sharers m R p := by
  intro u member
  rw [mem_sharers] at member ⊢
  exact fewer u member.1 member.2

theorem reaches_pos {m : Mem} {pos : Pos} (typed : Typed nav 3 m pos) (u p : Word)
    (root : pos u = some []) (reached : Reaches m u p) :
    ∃ r, 1 ≤ r.length ∧ r.length ≤ 3 ∧ pos p = some r ∧ node nav m u r = some p := by
  obtain ⟨r, nonempty, short, found⟩ := reached
  exact ⟨r, nonempty, short, typed.node_pos u p r root short found, found⟩

section Replaced

variable {k k' : Kernel} {pos : Pos} {t above va : Word} {q : List Idx} {a i : Idx}
  (site : Site k pos t above q a) (upper : q.length < 3)
  (replaced : Replaced k k' above a (k.next above a) i va)

include site upper replaced

/-- A copy of a table takes over from it in the trees that go through the entry that names it. -/
theorem Replaced.reaches (u p : Word) (root : pos u = some []) : Reaches k'.mem u p ↔
    (p = va ∧ node nav k.mem u q = some above) ∨
      (Reaches k.mem u p ∧ ¬ (p = k.next above a ∧ node nav k.mem u q = some above)) := by
  have size : (q ++ [a]).length = q.length + 1 := by simp
  have walks := replaced.walks site upper u root
  have next (through : node nav k.mem u q = some above) :
      node nav k.mem u (q ++ [a]) = some (k.next above a) := by
    rw [node_concat_some nav k.mem u above q a through]
    exact site.goes
  constructor
  · rintro ⟨r, nonempty, short, found⟩
    rw [walks r (by omega)] at found
    split_ifs at found with moved
    · exact .inl ⟨(Option.some.inj found).symm, moved.2⟩
    · refine .inr ⟨⟨r, nonempty, short, found⟩, fun ⟨same, through⟩ => moved ⟨?_, through⟩⟩
      subst same
      exact site.layout.typed.path_unique u u _ r (q ++ [a]) root root short (by omega) found
        (next through)
  · rintro (⟨rfl, through⟩ | ⟨⟨r, nonempty, short, found⟩, stays⟩)
    · exact ⟨q ++ [a], by omega, by omega, by rw [walks _ (by omega), if_pos ⟨rfl, through⟩]⟩
    · refine ⟨r, nonempty, short, ?_⟩
      rw [walks r (by omega), if_neg, found]
      rintro ⟨rfl, through⟩
      rw [next through] at found
      exact stays ⟨(Option.some.inj found).symm, through⟩

end Replaced

/-- The faulting task's walk has come to a table that no other task of `R` walks through. -/
structure Alone (k : Kernel) (pos : Pos) (R : Finset Word) (t above : Word) (q : List Idx) :
    Prop where
  adequate : Adequate k.mem R
  roots : ∀ u, u ∈ R → pos u = some []
  only : ∀ u, u ∈ R → node nav k.mem u q = some above → u = t

section Alone

variable {k k' : Kernel} {pos : Pos} {R : Finset Word} {t above va : Word} {q : List Idx} {a i : Idx}
  (member : t ∈ R) (site : Site k pos t above q a) (upper : q.length < 3)
  (alone : Alone k pos R t above q)

include member site upper alone

-- A table whose entry counts nothing is walked by the faulting task only.
theorem Alone.kept (valid : mmuIsValid (k.mem (k.next above a) i) = true)
    (zero : refCount (k.mem (k.next above a) i) = 0) :
    Alone k pos R t (k.next above a) (q ++ [a]) := by
  have few := alone.adequate _ i valid
  rw [zero] at few
  have size : (q ++ [a]).length = q.length + 1 := by simp
  have here : t ∈ sharers k.mem R (k.next above a) :=
    (mem_sharers ..).mpr ⟨member, q ++ [a], by omega, by omega, site.nextWalk⟩
  refine ⟨alone.adequate, alone.roots, fun u inside found => ?_⟩
  have there : u ∈ sharers k.mem R (k.next above a) :=
    (mem_sharers ..).mpr ⟨inside, q ++ [a], by omega, by omega, found⟩
  exact Finset.card_le_one.mp few u there t here

theorem Alone.replaced (valid : mmuIsValid (k.mem (k.next above a) i) = true)
    (replaced : Replaced k k' above a (k.next above a) i va) :
    Alone k' (Function.update pos va (some (q ++ [a]))) R t va (q ++ [a]) := by
  have size : (q ++ [a]).length = q.length + 1 := by simp
  have unused := replaced.unused site
  have reaches (u p : Word) (inside : u ∈ R) := replaced.reaches site upper u p (alone.roots u inside)
  have through : node nav k.mem t q = some above := site.walk
  have one (p : Word) (only : ∀ u, u ∈ R → Reaches k'.mem u p → u = t) :
      (sharers k'.mem R p).card ≤ 1 := by
    refine Finset.card_le_one.mpr fun u first w second => ?_
    rw [mem_sharers] at first second
    rw [only u first.1 first.2, only w second.1 second.2]
  refine ⟨fun p j valid' => ?_, fun u inside => ?_, fun u inside found => ?_⟩
  · by_cases copy : p = va
    · subst copy
      refine Nat.le_add_left_of_le (one p fun u inside reached => ?_)
      rcases (reaches u p inside).mp reached with ⟨_, there⟩ | ⟨old, _⟩
      · exact alone.only u inside there
      · obtain ⟨r, _, _, position, _⟩ :=
          reaches_pos site.layout.typed u p (alone.roots u inside) old
        rw [unused] at position
        cases position
    · have fewer : sharers k'.mem R p ⊆ sharers k.mem R p :=
        sharers_mono _ _ _ _ p fun u inside reached =>
          ⟨inside, (((reaches u p inside).mp reached).resolve_left fun new => copy new.1).1⟩
      by_cases old : p = k.next above a
      · -- The old table loses the faulting task, and its entry at most one count.
        subst old
        have lost : sharers k'.mem R (k.next above a) ⊆ (sharers k.mem R (k.next above a)).erase t := by
          intro u member'
          refine Finset.mem_erase.mpr ⟨?_, fewer member'⟩
          rintro rfl
          obtain ⟨_, reached⟩ := (mem_sharers ..).mp member'
          exact (((reaches u _ member).mp reached).resolve_left fun new => copy new.1).2
            ⟨rfl, through⟩
        have counted : t ∈ sharers k.mem R (k.next above a) :=
          (mem_sharers ..).mpr ⟨member, q ++ [a], by omega, by omega, site.nextWalk⟩
        have less := Finset.card_le_card lost
        rw [Finset.card_erase_of_mem counted] at less
        by_cases entry : j = i
        · subst entry
          have enough := alone.adequate _ j valid
          rw [replaced.freed, refCount_mmuMarkFreed]
          omega
        · rw [replaced.others _ j (site.layout.inUse _ _ (site.nextHere upper)) (.inr entry)
            (.inl (site.apart upper))] at valid' ⊢
          have enough := alone.adequate _ j valid'
          omega
      · by_cases link : p = above ∧ j = a
        · obtain ⟨rfl, rfl⟩ := link
          refine Nat.le_add_left_of_le (one p fun u inside reached => alone.only u inside ?_)
          obtain ⟨_, reached'⟩ := (mem_sharers ..).mp (fewer ((mem_sharers ..).mpr ⟨inside, reached⟩))
          obtain ⟨r, _, _, position, found⟩ :=
            reaches_pos site.layout.typed u p (alone.roots u inside) reached'
          obtain rfl := Option.some.inj (site.here.symm.trans position)
          exact found
        · have away : p ≠ above ∨ j ≠ a := not_and_or.mp link
          rcases Finset.eq_empty_or_nonempty (sharers k'.mem R p) with none | ⟨u, member⟩
          · simp [none]
          · obtain ⟨inside, reached⟩ := (mem_sharers ..).mp (fewer member)
            obtain ⟨r, _, _, position, _⟩ :=
              reaches_pos site.layout.typed u p (alone.roots u inside) reached
            rw [replaced.others p j (site.layout.inUse p r position) (.inl old) away] at valid' ⊢
            exact (Finset.card_le_card fewer).trans (alone.adequate p j valid')
  · exact extend_keeps unused (alone.roots u inside)
  · rw [replaced.walks site upper u (alone.roots u inside) _ (by omega)] at found
    split_ifs at found with moved
    · exact alone.only u inside moved.2
    · have position := site.layout.typed.node_pos u va _ (alone.roots u inside) (by omega) found
      rw [unused] at position
      cases position

end Alone

/-- The trees of `R` other than `t` have kept their tables, and these all but their counters. -/
def OthersKept (m m' : Mem) (R : Finset Word) (t : Word) : Prop :=
  ∀ u, u ∈ R → u ≠ t → ∀ r p, r.length ≤ 3 → node nav m u r = some p →
    node nav m' u r = some p ∧ ∀ i, entryBody (m' p i) = entryBody (m p i)

theorem OthersKept.refl (m : Mem) (R : Finset Word) (t : Word) : OthersKept m m R t :=
  fun _ _ _ _ _ _ found => ⟨found, fun _ => rfl⟩

theorem OthersKept.trans {m m' m'' : Mem} {R : Finset Word} {t : Word}
    (first : OthersKept m m' R t) (second : OthersKept m' m'' R t) : OthersKept m m'' R t := by
  intro u inside other r p short found
  obtain ⟨found', body⟩ := first u inside other r p short found
  obtain ⟨found'', body'⟩ := second u inside other r p short found'
  exact ⟨found'', fun i => (body' i).trans (body i)⟩

theorem othersKept_countDown (k : Kernel) (R : Finset Word) (t level : Word) (i : Idx) :
    OthersKept k.mem (k.countDown level i).mem R t := by
  intro u inside other r p short found
  rw [countDown_mem]
  refine ⟨?_, fun j => ?_⟩
  · have shape := shape_of_touched (Touched.one (fun e => (mmuMarkFreed e).2) k.mem level i)
      mmuMarkFreed_nav
    rw [shape.walk, found]
  · by_cases counted : p = level ∧ j = i
    · obtain ⟨rfl, rfl⟩ := counted
      rw [put_same, entryBody_mmuMarkFreed]
    · have away : p ≠ level ∨ j ≠ i := not_and_or.mp counted
      rw [put_other _ _ _ _ _ _ away]

section Others

variable {k k' : Kernel} {pos : Pos} {R : Finset Word} {t above va : Word} {q : List Idx} {a i : Idx}
  (site : Site k pos t above q a) (alone : Alone k pos R t above q)

include site alone

theorem Alone.othersReplaced (upper : q.length < 3)
    (replaced : Replaced k k' above a (k.next above a) i va) : OthersKept k.mem k'.mem R t := by
  intro u inside other r p short found
  have position := site.layout.typed.node_pos u p r (alone.roots u inside) short found
  refine ⟨?_, fun j => ?_⟩
  · rw [replaced.walks site upper u (alone.roots u inside) r (by omega), if_neg, found]
    exact fun moved => other (alone.only u inside moved.2)
  · by_cases counted : p = k.next above a ∧ j = i
    · obtain ⟨rfl, rfl⟩ := counted
      rw [replaced.freed, entryBody_mmuMarkFreed]
    · have notCounted : p ≠ k.next above a ∨ j ≠ i := not_and_or.mp counted
      have notAbove : p ≠ above := by
        rintro rfl
        obtain rfl := Option.some.inj (site.here.symm.trans position)
        exact other (alone.only u inside found)
      rw [replaced.others p j (site.layout.inUse p r position) notCounted (.inl notAbove)]

theorem Alone.othersCopied (deep : q.length = 3) (copied : DataCopied k k' above a va) :
    OthersKept k.mem k'.mem R t := by
  intro u inside other r p short found
  have position := site.layout.typed.node_pos u p r (alone.roots u inside) short found
  refine ⟨?_, fun j => ?_⟩
  · rw [copied.walks site deep u (alone.roots u inside) r (by omega), if_neg, found]
    exact fun moved => other (alone.only u inside moved.2)
  · have notLeaf : p ≠ above := by
      rintro rfl
      obtain rfl := Option.some.inj (site.here.symm.trans position)
      exact other (alone.only u inside found)
    rw [copied.others p j (site.layout.inUse p r position) (.inl notLeaf)]

end Others

/-- Wherever a call of mmu_handle_data_abort runs out of pages to copy tables to, the counter that
it has just taken down was above the number of other tasks that walk the table. `taken` counts the
pages it took before. -/
def CopiesFit (m : Mem) (R : Finset Word) (can : Nat → Bool) : Nat → Word → List Idx → Prop
  | taken, above, a :: i :: idx =>
    let level := mmuGetVaddr (m above a)
    mmuIsValid (m above a) = true → mmuIsValid (m level i) = true →
      if refCount (m level i) = 0 then CopiesFit m R can taken level (i :: idx)
      else if can (taken + 1) then CopiesFit m R can (taken + 1) level (i :: idx)
      else (sharers m R level).card ≤ (refCount (m level i)).toNat
  | _, _, _ => True

-- Only the tables below `level` matter to what is left of the path.
theorem copiesFit_congr {m m' : Mem} {R : Finset Word} {can can' : Nat → Bool} {taken taken' : Nat}
    {level level' : Word} {i : Idx} (idx : List Idx)
    (counts : ∀ n, can' (taken' + n) = can (taken + n))
    (entry : m' level' i &&& navMask = m level i &&& navMask)
    (below : ∀ r p, r.length < idx.length → node nav m level (i :: r) = some p →
      m' p = m p ∧ sharers m' R p = sharers m R p)
    (fits : CopiesFit m R can taken level (i :: idx)) :
    CopiesFit m' R can' taken' level' (i :: idx) := by
  induction idx generalizing taken taken' level level' i with
  | nil => simp [CopiesFit]
  | cons j idx ih =>
    simp only [CopiesFit] at fits ⊢
    intro valid valid'
    rw [isValid_congr _ _ entry] at valid
    rw [getVaddr_congr _ _ entry] at valid' ⊢
    have step (r : List Idx) :
        node nav m level (i :: r) = node nav m (mmuGetVaddr (m level i)) r := by
      rw [node_cons, nav_of_valid _ valid, Option.bind_some]
    obtain ⟨row, shared⟩ := below [] _ (by simp) (step [])
    generalize mmuGetVaddr (m level i) = next at *
    rw [row] at valid' ⊢
    rw [shared]
    have deeper (r : List Idx) (p : Word) (short : r.length < idx.length)
        (found : node nav m next (j :: r) = some p) : m' p = m p ∧ sharers m' R p = sharers m R p :=
      below (j :: r) p (by simpa using short) (by rw [step]; exact found)
    have holds := fits valid valid'
    rw [show can' (taken' + 1) = can (taken + 1) from counts 1]
    split_ifs at holds ⊢
    · exact ih counts (by rw [row]) deeper holds
    · refine ih (fun n => ?_) (by rw [row]) deeper holds
      rw [Nat.add_assoc, Nat.add_assoc]
      exact counts (1 + n)
    · exact holds

theorem Alone.copiesFit {k k' : Kernel} {pos : Pos} {R : Finset Word} {t above va : Word}
    {q : List Idx} {a i : Idx} {idx : List Idx} (site : Site k pos t above q a) (upper : q.length < 3)
    (alone : Alone k pos R t above q) (size : q.length + (a :: i :: idx).length = 4)
    (replaced : Replaced k k' above a (k.next above a) i va)
    (fits : CopiesFit k.mem R (fun n => canAlloc n k) 1 (k.next above a) (i :: idx)) :
    CopiesFit k'.mem R (fun n => canAlloc n k') 0 va (i :: idx) := by
  rw [List.length_cons, List.length_cons] at size
  refine copiesFit_congr idx (fun n => ?_) (replaced.goesCopy site upper i) ?_ fits
  · show canAlloc (0 + n) k' = canAlloc (1 + n) k
    rw [Nat.zero_add, replaced.room, Nat.add_comm]
  · intro r p short found
    have position := site.layout.shaped.node_pos (site.nextHere upper) (i :: r) p (by
      simp only [List.length_append, List.length_cons, List.length_nil]
      omega) found
    have away (x : Word) (s : List Idx) (there : pos x = some s) (shorter : s.length ≤ q.length + 1) :
        p ≠ x := by
      rintro rfl
      have path := congrArg List.length (Option.some.inj (position.symm.trans there))
      simp only [List.length_append, List.length_cons, List.length_nil] at path
      omega
    have notAbove := away above q site.here (by omega)
    have notNext := away _ _ (site.nextHere upper) (by simp)
    refine ⟨?_, ?_⟩
    · funext j
      exact replaced.others p j (site.layout.inUse p _ position) (.inl notNext) (.inl notAbove)
    · ext u
      simp only [mem_sharers]
      refine and_congr_right fun inside => ?_
      rw [replaced.reaches site upper u p (alone.roots u inside)]
      simp [notNext, replaced.away site p _ position]

/-- mmu_handle_data_abort keeps the counters adequate and the other tasks' tables as they were. -/
theorem abort_adequate (k : Kernel) (pos : Pos) (R : Finset Word) (table vaddr : Word)
    (wf : KernelWf k) (layout : TaskLayout k pos) (adequate : Adequate k.mem R)
    (roots : ∀ u, u ∈ R → pos u = some []) (member : physToVirt table ∈ R)
    (fits : CopiesFit k.mem R (fun n => canAlloc n k) 0 (physToVirt table) (mmuGetTableIdx vaddr)) :
    ∃ k' pos' r, mmuHandleDataAbort k table vaddr = (r, k') ∧ Aborted k k' pos pos' ∧
      Adequate k'.mem R ∧ OthersKept k.mem k'.mem R (physToVirt table) := by
  have rule : CowRule (physToVirt table)
      (fun k₁ pos₁ above q rest => Alone k₁ pos₁ R (physToVirt table) above q ∧
        OthersKept k.mem k₁.mem R (physToVirt table) ∧ q.length + rest.length = 4 ∧
        CopiesFit k₁.mem R (fun n => canAlloc n k₁) 0 above rest)
      (fun _ k' _ => Adequate k'.mem R ∧ OthersKept k.mem k'.mem R (physToVirt table)) := by
    constructor
    case absent => exact fun _ _ _ _ ⟨alone, kept, _⟩ _ => ⟨alone.adequate, kept⟩
    case missing => exact fun _ _ _ _ _ _ _ _ _ ⟨alone, kept, _⟩ _ => ⟨alone.adequate, kept⟩
    case full => exact fun _ _ _ _ _ _ _ ⟨alone, kept, _⟩ _ => ⟨alone.adequate, kept⟩
    case kept =>
      rintro k₁ pos₁ above q a i idx site upper ⟨alone, kept, size, fit⟩ valid zero
      simp only [CopiesFit] at fit
      have rest := fit site.valid valid
      have same : refCount (k₁.mem (mmuGetVaddr (k₁.mem above a)) i) = 0 := zero
      rw [if_pos same] at rest
      refine ⟨alone.kept member site upper valid zero, kept, ?_, rest⟩
      rw [List.length_append, List.length_singleton]
      rw [List.length_cons] at size
      omega
    case dry =>
      rintro k₁ pos₁ above q a i idx site upper ⟨alone, kept, size, fit⟩ valid counted dry
      simp only [CopiesFit] at fit
      have rest := fit site.valid valid
      have same : ¬ refCount (k₁.mem (mmuGetVaddr (k₁.mem above a)) i) = 0 := counted
      rw [if_neg same, if_neg (by rw [dry]; exact Bool.false_ne_true)] at rest
      refine ⟨fun p j valid' => ?_, kept.trans (othersKept_countDown _ _ _ _ _)⟩
      have shape := shape_of_touched
        (Touched.one (fun e => (mmuMarkFreed e).2) k₁.mem (k₁.next above a) i) mmuMarkFreed_nav
      rw [countDown_mem] at valid' ⊢
      rw [shape.valid] at valid'
      have fewer := Finset.card_le_card (sharers_mono k₁.mem
        (put k₁.mem (k₁.next above a) i (mmuMarkFreed (k₁.mem (k₁.next above a) i)).2) R R p
        fun u inside ⟨r, nonempty, short, found⟩ =>
          ⟨inside, r, nonempty, short, by rw [← shape.walk]; exact found⟩)
      by_cases here : p = k₁.next above a ∧ j = i
      · obtain ⟨rfl, rfl⟩ := here
        rw [put_same, refCount_mmuMarkFreed]
        have enough : (sharers k₁.mem R (k₁.next above a)).card ≤
            (refCount (k₁.mem (k₁.next above a) j)).toNat := rest
        omega
      · have away : p ≠ k₁.next above a ∨ j ≠ i := not_and_or.mp here
        rw [put_other _ _ _ _ _ _ away]
        exact fewer.trans (alone.adequate p j valid')
    case replaced =>
      rintro k₁ k₂ pos₁ above q a i idx va site upper ⟨alone, kept, size, fit⟩ valid counted replaced
      have room : CopiesFit k₁.mem R (fun n => canAlloc n k₁) 1 (k₁.next above a) (i :: idx) := by
        simp only [CopiesFit] at fit
        have rest := fit site.valid valid
        have same : ¬ refCount (k₁.mem (mmuGetVaddr (k₁.mem above a)) i) = 0 := counted
        have enough : canAlloc 1 k₁ = true := by rw [← replaced.room 0]; rfl
        rw [if_neg same, if_pos enough] at rest
        exact rest
      refine ⟨alone.replaced member site upper valid replaced,
        kept.trans (alone.othersReplaced site upper replaced), ?_,
        alone.copiesFit site upper size replaced room⟩
      rw [List.length_append, List.length_singleton]
      rw [List.length_cons] at size
      omega
    case copied =>
      rintro k₁ k₂ pos₁ level3 q i va site deep ⟨alone, kept, size, _⟩ copied
      refine ⟨fun p j valid => ?_, kept.trans (alone.othersCopied site deep copied)⟩
      have page : IsPage va := by
        obtain ⟨n, inside, rfl, _⟩ := copied.fresh
        exact isPage_poolVa n inside
      have reaches (u : Word) (inside : u ∈ R) (reached : Reaches k₂.mem u p) :
          Reaches k₁.mem u p := by
        obtain ⟨r, nonempty, short, found⟩ := reached
        have longer : ¬ (r = q ++ [i] ∧ node nav k₁.mem u q = some level3) := by
          rintro ⟨rfl, _⟩
          rw [List.length_append, List.length_singleton] at short
          omega
        rw [copied.walks site deep u (alone.roots u inside) r (by omega), if_neg longer] at found
        exact ⟨r, nonempty, short, found⟩
      have fewer : sharers k₂.mem R p ⊆ sharers k₁.mem R p :=
        sharers_mono _ _ _ _ p fun u inside reached => ⟨inside, reaches u inside reached⟩
      rcases Finset.eq_empty_or_nonempty (sharers k₂.mem R p) with none | ⟨u, member⟩
      · simp [none]
      · obtain ⟨inside, reached⟩ := (mem_sharers ..).mp (fewer member)
        obtain ⟨r, _, _, position, _⟩ :=
          reaches_pos site.layout.typed u p (alone.roots u inside) reached
        refine (Finset.card_le_card fewer).trans ?_
        by_cases leaf : p = level3 ∧ j = i
        · obtain ⟨rfl, rfl⟩ := leaf
          rw [copied.leaf, copiedLeaf_ref _ _ page]
          exact alone.adequate _ _ site.valid
        · have away : p ≠ level3 ∨ j ≠ i := not_and_or.mp leaf
          rw [copied.others p j (site.layout.inUse p r position) away] at valid ⊢
          exact alone.adequate p j valid
  obtain ⟨done, k', pos', result, aborted, holds, kept⟩ := rule.abort k pos table vaddr rfl wf layout
    (roots _ member) ⟨⟨adequate, roots, fun u _ found => Option.some.inj found⟩, .refl _ _ _, rfl, fits⟩
  exact ⟨k', pos', _, result, aborted, holds, kept⟩

theorem SysLayout.rooted {s : Sys} {pos : Pos} (system : SysLayout s pos) (u : Word)
    (member : u ∈ s.roots) : pos u = some [] := by
  obtain ⟨ptr, live, rfl⟩ := (mem_roots s u).mp member
  exact system.roots ptr live

section Fork

variable {s s' : Sys} {pos : Pos} {child : Word} (system : SysLayout s pos)
  (forked : ForkedSys s s' pos child)

include system forked

theorem ForkedSys.reaches (u p : Word) (root : pos u = some []) :
    Reaches s'.kernel.mem u p ↔ Reaches s.kernel.mem u p := by
  constructor
  · rintro ⟨r, nonempty, short, found⟩
    exact ⟨r, nonempty, short, by rw [← forked.walks system u root r (by omega)]; exact found⟩
  · rintro ⟨r, nonempty, short, found⟩
    exact ⟨r, nonempty, short, by rw [forked.walks system u root r (by omega)]; exact found⟩

theorem ForkedSys.childReaches (p : Word) :
    Reaches s'.kernel.mem (s'.table child) p ↔ Reaches s.kernel.mem (s.table s.current) p := by
  rw [← forked.reaches system _ p (system.roots _ system.running)]
  constructor
  · rintro ⟨r, nonempty, short, found⟩
    rw [twin_node (forked.twins system) r (by rintro rfl; simp at nonempty)] at found
    exact ⟨r, nonempty, short, found⟩
  · rintro ⟨r, nonempty, short, found⟩
    rw [← twin_node (forked.twins system) r (by rintro rfl; simp at nonempty)] at found
    exact ⟨r, nonempty, short, found⟩

-- A root is an old one, or the child's if there was a slot for it.
theorem ForkedSys.newRoots (u : Word) (member : u ∈ s'.roots) :
    u ∈ s.roots ∨ (u = s'.table child ∧ ∃ i, s.tasks i = none) := by
  obtain ⟨ptr, live, rfl⟩ := (mem_roots s' u).mp member
  by_cases here : ptr = child
  · subst here
    rcases forked.only ptr live with old | ⟨_, slot⟩
    · exact absurd forked.fresh (system.structs ptr old)
    · exact .inr ⟨rfl, slot⟩
  · rcases forked.only ptr live with old | ⟨same, _⟩
    · exact .inl ((mem_roots s _).mpr ⟨ptr, old, (forked.tables ptr here).symm⟩)
    · exact absurd same here

/-- The soft copy counts the child in every entry of the tables it shares, up to the limit. -/
theorem ForkedSys.adequate (adequate : Adequate s.kernel.mem s.roots)
    (few : (∃ i, s.tasks i = none) → ∀ p i, Reaches s.kernel.mem (s.table s.current) p →
      mmuIsValid (s.kernel.mem p i) = true → (sharers s.kernel.mem s.roots p).card ≤ 15) :
    Adequate s'.kernel.mem s'.roots := by
  intro p i valid'
  have current := system.roots _ system.running
  have currentRoot : s.table s.current ∈ s.roots := (mem_roots s _).mpr ⟨_, system.running, rfl⟩
  have old (u : Word) (member : u ∈ sharers s'.kernel.mem s'.roots p)
      (other : u ≠ s'.table child ∨ ¬ ∃ i, s.tasks i = none) : u ∈ sharers s.kernel.mem s.roots p := by
    obtain ⟨inside, reached⟩ := (mem_sharers ..).mp member
    rcases forked.newRoots system u inside with before | ⟨rfl, slot⟩
    · exact (mem_sharers ..).mpr
        ⟨before, (forked.reaches system u p (system.rooted u before)).mp reached⟩
    · exact absurd slot (other.resolve_left fun different => different rfl)
  rcases Finset.eq_empty_or_nonempty (sharers s'.kernel.mem s'.roots p) with none | ⟨u, member⟩
  · simp [none]
  · have position : ∃ r, pos p = some r := by
      obtain ⟨inside, reached⟩ := (mem_sharers ..).mp member
      rcases forked.newRoots system u inside with before | ⟨rfl, _⟩
      · have rooted := system.rooted u before
        obtain ⟨r, _, _, position, _⟩ := reaches_pos system.layout.typed u p rooted
          ((forked.reaches system u p rooted).mp reached)
        exact ⟨r, position⟩
      · obtain ⟨r, _, _, position, _⟩ := reaches_pos system.layout.typed _ p current
          ((forked.childReaches system p).mp reached)
        exact ⟨r, position⟩
    obtain ⟨r, position⟩ := position
    have valid : mmuIsValid (s.kernel.mem p i) = true := by
      rw [← isValid_congr _ _ (forked.shape system p r i position)]
      exact valid'
    have enough := adequate p i valid
    have bound := refCount_bound (s.kernel.mem p i)
    by_cases shared : Reaches s.kernel.mem (s.table s.current) p
    · obtain ⟨w, nonempty, short, found⟩ := shared
      rw [forked.forked.marks p i ⟨w, nonempty, short, found, .inr valid⟩, refCount_mmuMarkCopied]
      by_cases slot : ∃ i, s.tasks i = Option.none
      · have most := few slot p i ⟨w, nonempty, short, found⟩ valid
        have more : sharers s'.kernel.mem s'.roots p ⊆
            insert (s'.table child) (sharers s.kernel.mem s.roots p) := by
          intro x member
          by_cases new : x = s'.table child
          · exact Finset.mem_insert.mpr (.inl new)
          · exact Finset.mem_insert.mpr (.inr (old x member (.inl new)))
        have size := (Finset.card_le_card more).trans (Finset.card_insert_le _ _)
        omega
      · have size := Finset.card_le_card fun x member => old x member (.inr slot)
        omega
    · have away : ¬ Lower s.kernel.mem (s.table s.current) p i :=
        fun ⟨w, nonempty, short, found, _⟩ => shared ⟨w, nonempty, short, found⟩
      rw [forked.forked.others p i (system.layout.inUse p r position) away]
      refine (Finset.card_le_card fun x member => old x member (.inl ?_)).trans enough
      rintro rfl
      exact shared ((forked.childReaches system p).mp ((mem_sharers ..).mp member).2)

end Fork

-- A task_fork that runs out of memory may keep pages, but it writes no table.
theorem Taken.adequate {k k' : Kernel} {pos : Pos} {pages : List Word} {R : Finset Word}
    (taken : Taken k k' pages) (layout : TaskLayout k pos) (roots : ∀ u, u ∈ R → pos u = some [])
    (adequate : Adequate k.mem R) : Adequate k'.mem R := by
  intro p i valid
  have reaches (u : Word) (inside : u ∈ R) (reached : Reaches k'.mem u p) : Reaches k.mem u p := by
    obtain ⟨r, nonempty, short, found⟩ := reached
    refine ⟨r, nonempty, short, ?_⟩
    rw [← found]
    exact (layout.typed.node_same u (fun p q j position => by
      rw [taken.keeps p (layout.inUse p q position)]) (roots u inside) r (by omega)).symm
  have fewer : sharers k'.mem R p ⊆ sharers k.mem R p :=
    sharers_mono _ _ _ _ p fun u inside reached => ⟨inside, reaches u inside reached⟩
  rcases Finset.eq_empty_or_nonempty (sharers k'.mem R p) with none | ⟨u, member⟩
  · simp [none]
  · obtain ⟨inside, reached⟩ := (mem_sharers ..).mp (fewer member)
    obtain ⟨r, _, _, position, _⟩ := reaches_pos layout.typed u p (roots u inside) reached
    rw [taken.keeps p (layout.inUse p r position)] at valid ⊢
    exact (Finset.card_le_card fewer).trans (adequate p i valid)

def Sys.switchTo (s : Sys) (ptr : Word) : Sys := { s with current := ptr }

-- The exception handler passes the table of the running task.
def Sys.dataAbort (s : Sys) (vaddr : Word) : Word × Sys :=
  let result := mmuHandleDataAbort s.kernel s.currentTask.tranTable vaddr
  (result.1, { s with kernel := result.2 })

/-- A task forks, or writes to a page that it may not write to. -/
inductive CowCall where
  | fork (ptr : Word)
  | abort (ptr vaddr : Word)
deriving DecidableEq, Repr

def CowCall.actor : CowCall → Word
  | .fork ptr => ptr
  | .abort ptr _ => ptr

def CowCall.run (s : Sys) : CowCall → Sys
  | .fork ptr => (taskFork (s.switchTo ptr)).2
  | .abort ptr vaddr => ((s.switchTo ptr).dataAbort vaddr).2

/-- No table with a valid entry gets a seventeenth task, and no call of mmu_handle_data_abort runs out
of pages at a table whose counter does not allow it. -/
def CowCall.Fits (s : Sys) : CowCall → Prop
  | .fork ptr => canAlloc 3 s.kernel = true → (∃ i, s.tasks i = none) →
      ∀ p i, Reaches s.kernel.mem (s.table ptr) p → mmuIsValid (s.kernel.mem p i) = true →
        (sharers s.kernel.mem s.roots p).card ≤ 15
  | .abort ptr vaddr => CopiesFit s.kernel.mem s.roots (fun n => canAlloc n s.kernel) 0 (s.table ptr)
      (mmuGetTableIdx vaddr)

theorem SysLayout.switchTo {s : Sys} {pos : Pos} (system : SysLayout s pos) (ptr : Word)
    (live : s.Live ptr) : SysLayout (s.switchTo ptr) pos where
  wf := system.wf
  layout := system.layout
  roots := system.roots
  structs := system.structs
  running := live

theorem SysLayout.aborted {s : Sys} {pos pos' : Pos} {k' : Kernel} (system : SysLayout s pos)
    (aborted : Aborted s.kernel k' pos pos') : SysLayout { s with kernel := k' } pos' where
  wf := aborted.wf
  layout := aborted.layout
  roots ptr live := aborted.keeps _ _ (system.roots ptr live)
  structs ptr live free := system.structs ptr live (aborted.grew.shrinks ptr free)
  running := system.running

theorem SysLayout.taken {s s' : Sys} {pos : Pos} {pages : List Word} (system : SysLayout s pos)
    (taken : Taken s.kernel s'.kernel pages) (tasks : s'.tasks = s.tasks)
    (current : s'.current = s.current) (tables : ∀ ptr, s'.table ptr = s.table ptr) :
    SysLayout s' pos where
  wf := taken.wf
  layout := taken.taskLayout system.layout
  roots ptr live := by
    rw [tables]
    exact system.roots ptr (by rw [Sys.Live, tasks] at live; exact live)
  structs ptr live free :=
    system.structs ptr (by rw [Sys.Live, tasks] at live; exact live) (taken.grew.shrinks ptr free)
  running := by
    rw [current, Sys.Live, tasks]
    exact system.running

theorem roots_same {s s' : Sys} (tasks : s'.tasks = s.tasks)
    (tables : ∀ ptr, s'.table ptr = s.table ptr) : s'.roots = s.roots := by
  ext u
  simp only [mem_roots, Sys.Live, tasks, tables]

theorem fork_step (s : Sys) (pos : Pos) (ptr : Word) (system : SysLayout s pos)
    (adequate : Adequate s.kernel.mem s.roots) (live : s.Live ptr) (fits : (CowCall.fork ptr).Fits s) :
    ∃ pos', SysLayout ((CowCall.fork ptr).run s) pos' ∧
      Adequate ((CowCall.fork ptr).run s).kernel.mem ((CowCall.fork ptr).run s).roots := by
  have switched : (s.switchTo ptr).roots = s.roots := roots_same rfl fun _ => rfl
  have system := system.switchTo ptr live
  have few : canAlloc 3 (s.switchTo ptr).kernel = true → (∃ i, (s.switchTo ptr).tasks i = none) →
      ∀ p i, Reaches (s.switchTo ptr).kernel.mem ((s.switchTo ptr).table (s.switchTo ptr).current) p →
        mmuIsValid ((s.switchTo ptr).kernel.mem p i) = true →
        (sharers (s.switchTo ptr).kernel.mem (s.switchTo ptr).roots p).card ≤ 15 := by
    rw [switched]
    exact fits
  have adequate : Adequate (s.switchTo ptr).kernel.mem (s.switchTo ptr).roots := by
    rw [switched]
    exact adequate
  show ∃ pos', SysLayout (taskFork (s.switchTo ptr)).2 pos' ∧
    Adequate (taskFork (s.switchTo ptr)).2.kernel.mem (taskFork (s.switchTo ptr)).2.roots
  generalize s.switchTo ptr = s at system few adequate
  rcases taskFork_spec s pos system with
    ⟨child, _, _, enough, forked⟩ | ⟨pages, _, _, _, taken, tasks, current, tables⟩
  · exact ⟨_, forked.system system, forked.adequate system adequate (few enough)⟩
  · refine ⟨pos, system.taken taken tasks current tables, ?_⟩
    rw [roots_same tasks tables]
    exact taken.adequate system.layout system.rooted adequate

theorem abort_step (s : Sys) (pos : Pos) (ptr vaddr : Word) (system : SysLayout s pos)
    (adequate : Adequate s.kernel.mem s.roots) (live : s.Live ptr)
    (fits : (CowCall.abort ptr vaddr).Fits s) :
    ∃ pos', SysLayout ((CowCall.abort ptr vaddr).run s) pos' ∧
      Adequate ((CowCall.abort ptr vaddr).run s).kernel.mem ((CowCall.abort ptr vaddr).run s).roots ∧
      OthersKept s.kernel.mem ((CowCall.abort ptr vaddr).run s).kernel.mem s.roots (s.table ptr) := by
  have member : s.table ptr ∈ s.roots := (mem_roots s _).mpr ⟨ptr, live, rfl⟩
  obtain ⟨k', pos', r, result, aborted, holds, kept⟩ := abort_adequate s.kernel pos s.roots
    (s.task ptr).tranTable vaddr system.wf system.layout adequate system.rooted member fits
  have after : (CowCall.abort ptr vaddr).run s = { s.switchTo ptr with kernel := k' } := by
    show ({ s.switchTo ptr with kernel :=
      (mmuHandleDataAbort s.kernel (s.task ptr).tranTable vaddr).2 } : Sys) = _
    rw [result]
  have roots : ({ s.switchTo ptr with kernel := k' } : Sys).roots = s.roots :=
    roots_same rfl fun _ => rfl
  rw [after, roots]
  exact ⟨pos', (system.switchTo ptr live).aborted aborted, holds, kept⟩

def CowCall.Step (s : Sys) (call : CowCall) (s' : Sys) : Prop := call.run s = s'

def CowCall.Allowed (s : Sys) (call : CowCall) : Prop := s.Live call.actor ∧ call.Fits s

/-- In a run of forks and faults in which no table with a valid entry gets more than sixteen tasks and
memory never runs out at a table that is to be copied, every entry counts all but one of the tasks
that walk its table, and a fault changes nothing but counters in the tables of other tasks. -/
theorem cow_adequate (s₀ s : Sys) (pos : Pos) (system : SysLayout s₀ pos)
    (adequate : Adequate s₀.kernel.mem s₀.roots)
    (run : Run CowCall.Step CowCall.Allowed s₀ s) :
    Adequate s.kernel.mem s.roots ∧ ∀ ptr vaddr, (CowCall.abort ptr vaddr).Allowed s →
      OthersKept s.kernel.mem ((CowCall.abort ptr vaddr).run s).kernel.mem s.roots (s.table ptr) := by
  obtain ⟨pos', system', holds⟩ : ∃ pos', SysLayout s pos' ∧ Adequate s.kernel.mem s.roots := by
    refine run.invariant (fun s => ∃ pos', SysLayout s pos' ∧ Adequate s.kernel.mem s.roots)
      ⟨pos, system, adequate⟩ ?_
    rintro s call s' ⟨pos', system', holds⟩ ⟨live, fits⟩ taken
    unfold CowCall.Step at taken
    subst taken
    cases call with
    | fork ptr => exact fork_step s pos' ptr system' holds live fits
    | abort ptr vaddr =>
      obtain ⟨pos'', system'', holds', _⟩ := abort_step s pos' ptr vaddr system' holds live fits
      exact ⟨pos'', system'', holds'⟩
  refine ⟨holds, fun ptr vaddr allowed => ?_⟩
  obtain ⟨_, _, _, kept⟩ := abort_step s pos' ptr vaddr system' holds allowed.1 allowed.2
  exact kept

theorem adequate_of_single (m : Mem) (R : Finset Word) (single : R.card ≤ 1) : Adequate m R := by
  intro p i _
  have size := sharers_card_le m R p
  omega

theorem oneTask_roots (cells : List Cell) (free : List Nat) (tables : Tables)
    (crewFits : CrewFits [⟨10, 4, 11, 10, 0⟩] free tables 10) : (oneTask cells free).roots.card ≤ 1 := by
  refine Finset.card_le_one.mpr fun u first w second => ?_
  have only (x : Word) (member : x ∈ (oneTask cells free).roots) : x = poolVa 4 := by
    obtain ⟨ptr, live, rfl⟩ := (mem_roots (oneTask cells free) x).mp member
    obtain ⟨m, listed, rfl⟩ := (crew_live cells free _ 10 tables crewFits ptr).mp live
    have same := crew_table cells free _ 10 tables crewFits m listed
    obtain rfl := List.mem_singleton.mp listed
    exact same
  exact (only u first).trans (only w second).symm

theorem cow_adequate_onePage : ∃ (s : Sys) (pos : Pos),
    SysLayout (oneTask (onePage 0) [20, 21, 22, 23]) pos ∧
    Run CowCall.Step CowCall.Allowed (oneTask (onePage 0) [20, 21, 22, 23]) s ∧
    Adequate s.kernel.mem s.roots := by
  have fits : Fits (onePage 0) [20, 21, 22, 23] onePageTables := by decide +kernel
  have system := oneTask_layout (onePage 0) [20, 21, 22, 23] onePageTables fits (by decide +kernel)
    (by decide +kernel) (by decide)
  have few := oneTask_roots (onePage 0) [20, 21, 22, 23] onePageTables (by decide +kernel)
  have run : Run CowCall.Step CowCall.Allowed (oneTask (onePage 0) [20, 21, 22, 23]) _ :=
    .next _ _ (.fork _) .start ⟨system.running, fun _ _ p _ _ _ =>
      ((sharers_card_le _ _ p).trans few).trans (by decide)⟩ rfl
  exact ⟨_, _, system, run,
    (cow_adequate _ _ _ system (adequate_of_single _ _ few) run).1⟩

-- Sixteen tasks with one level-1 table, whose entry counts as far as it can.
def crowdTables : Tables :=
  (List.range 16).map (fun j => (20 + j, [])) ++ [(5, [0]), (6, [0, 0])]

def crowdCells : List Cell :=
  (List.range 16).map (fun j => ⟨20 + j, 0, tableEntry (poolVa 5)⟩) ++
    [⟨5, 0, setRef (tableEntry (poolVa 6)) 15⟩]

def crowdMembers : List Member :=
  (List.range 16).map fun j => ⟨40 + j, 20 + j, 60 + j, 40, if j = 0 then 15 else 0⟩

def crowd : Sys := crew crowdCells [80, 81, 82, 83] crowdMembers 40

theorem crowd_fits : Fits crowdCells [80, 81, 82, 83] crowdTables ∧
    TaskFits crowdCells crowdTables ∧ CrewFits crowdMembers [80, 81, 82, 83] crowdTables 40 := by
  decide +kernel

theorem crowd_layout : SysLayout crowd (posOf crowdTables) :=
  crew_layout crowdCells _ crowdMembers 40 crowdTables crowd_fits.2.2 crowd_fits.1 crowd_fits.2.1

def crowdRoots : List Word := (List.range 16).map fun j => poolVa (20 + j)

theorem crowd_roots (u : Word) : u ∈ crowd.roots ↔ u ∈ crowdRoots := by
  have members : crowdMembers.map (fun m => poolVa m.table) = crowdRoots := by decide +kernel
  rw [mem_roots, ← members, List.mem_map]
  constructor
  · rintro ⟨ptr, live, rfl⟩
    obtain ⟨m, listed, rfl⟩ := (crew_live _ _ _ _ _ crowd_fits.2.2 ptr).mp live
    exact ⟨m, listed, (crew_table _ _ _ _ _ crowd_fits.2.2 m listed).symm⟩
  · rintro ⟨m, listed, rfl⟩
    exact ⟨poolVa m.task, (crew_live _ _ _ _ _ crowd_fits.2.2 _).mpr ⟨m, listed, rfl⟩,
      crew_table _ _ _ _ _ crowd_fits.2.2 m listed⟩

theorem crowd_shares (u : Word) (member : u ∈ crowdRoots) :
    node nav crowd.kernel.mem u [0] = some (poolVa 5) := by
  have all : ∀ j : Fin 16, node nav (machine crowdCells [80, 81, 82, 83]).mem (poolVa (20 + j.val)) [0] =
      some (poolVa 5) := by decide +kernel
  obtain ⟨j, small, rfl⟩ := List.mem_map.mp member
  exact all ⟨j, List.mem_range.mp small⟩

theorem crowd_entry : crowd.kernel.mem (poolVa 5) 0 = setRef (tableEntry (poolVa 6)) 15 := by
  decide +kernel

theorem crowd_adequate : Adequate crowd.kernel.mem crowd.roots := by
  have cellRefs : ∀ cell, cell ∈ crowdCells → cell.page = 5 ∨ cell.page = 6 →
      refCount cell.entry = 15 := by decide +kernel
  have lower : ∀ table, table ∈ crowdTables → table.2 ≠ [] → table.1 = 5 ∨ table.1 = 6 := by
    decide +kernel
  intro p i valid
  rcases Finset.eq_empty_or_nonempty (sharers crowd.kernel.mem crowd.roots p) with none | ⟨u, member⟩
  · simp [none]
  · obtain ⟨inside, reached⟩ := (mem_sharers crowd.kernel.mem crowd.roots p u).mp member
    obtain ⟨r, nonempty, _, position, _⟩ := reaches_pos crowd_layout.layout.typed u p
      (crowd_layout.rooted u inside) reached
    obtain ⟨n, table, rfl, cell⟩ := machine_cell crowdCells [80, 81, 82, 83] crowdTables crowd_fits.1 p r i
      position valid
    have count := cellRefs _ cell (lower _ table (by rintro rfl; simp at nonempty))
    have few : (sharers crowd.kernel.mem crowd.roots (poolVa n)).card ≤ crowdRoots.length := by
      refine le_trans (Finset.card_le_card fun x there => ?_) (List.toFinset_card_le crowdRoots)
      exact List.mem_toFinset.mpr ((crowd_roots x).mp
        ((mem_sharers crowd.kernel.mem crowd.roots (poolVa n) x).mp there).1)
    have sixteen : crowdRoots.length = 16 := by decide
    have kernel : crowd.kernel = machine crowdCells [80, 81, 82, 83] := rfl
    rw [sixteen] at few
    rw [kernel] at few ⊢
    rw [count]
    exact few

/-- With a seventeenth task the counters no longer cover the tasks that walk the table. -/
theorem crowd_fork_saturates : ¬ ∀ (s₀ s : Sys) (pos : Pos), SysLayout s₀ pos →
    Adequate s₀.kernel.mem s₀.roots →
    Run CowCall.Step (fun s call => s.Live call.actor) s₀ s → Adequate s.kernel.mem s.roots := by
  intro claim
  have system := crowd_layout
  have adequate := claim crowd ((CowCall.fork crowd.current).run crowd) _ system crowd_adequate
    (.next _ _ (.fork crowd.current) .start system.running rfl)
  have enough : canAlloc 3 (machine crowdCells [80, 81, 82, 83]) = true := by decide +kernel
  rcases taskFork_spec crowd _ system with ⟨child, _, _, _, forked⟩ | ⟨_, _, _, dry, _⟩
  · have run : (CowCall.fork crowd.current).run crowd = (taskFork crowd).2 := rfl
    rw [run] at adequate
    generalize (taskFork crowd).2 = s' at forked adequate
    have walk : node nav crowd.kernel.mem (crowd.table crowd.current) [0] = some (poolVa 5) :=
      crowd_shares _ ((crowd_roots _).mp ((mem_roots crowd _).mpr ⟨_, system.running, rfl⟩))
    have position := system.layout.typed.node_pos _ _ [0] (system.roots _ system.running) (by simp) walk
    have valid : mmuIsValid (crowd.kernel.mem (poolVa 5) 0) = true := by
      rw [crowd_entry]
      decide +kernel
    have valid' : mmuIsValid (s'.kernel.mem (poolVa 5) 0) = true := by
      rw [isValid_congr _ _ (forked.shape system _ _ _ position), valid]
    have count : (refCount (s'.kernel.mem (poolVa 5) 0)).toNat = 15 := by
      rw [forked.forked.marks _ _ ⟨[0], by simp, by simp, walk, .inl rfl⟩, refCount_mmuMarkCopied,
        crowd_entry]
      decide +kernel
    have new : s'.table child ∉ crowdRoots := by
      intro old
      have rooted := system.rooted _ ((crowd_roots _).mpr old)
      rw [system.layout.unused _ forked.forked.fresh] at rooted
      cases rooted
    have all : insert (s'.table child) crowdRoots.toFinset ⊆
        sharers s'.kernel.mem s'.roots (poolVa 5) := by
      intro u member
      rcases Finset.mem_insert.mp member with rfl | old
      · refine (mem_sharers ..).mpr ⟨(mem_roots _ _).mpr ⟨child, forked.listed ⟨20, rfl⟩, rfl⟩, ?_⟩
        exact (forked.childReaches system _).mpr ⟨[0], by simp, by simp, walk⟩
      · have inside := (crowd_roots u).mpr (List.mem_toFinset.mp old)
        have rooted := system.rooted u inside
        obtain ⟨ptr, live, rfl⟩ := (mem_roots _ u).mp inside
        have away : ptr ≠ child := by
          rintro rfl
          exact system.structs _ live forked.fresh
        refine (mem_sharers ..).mpr ⟨(mem_roots _ _).mpr ⟨ptr, forked.live ptr live,
          forked.tables ptr away⟩, (forked.reaches system _ _ rooted).mpr ⟨[0], by simp, by simp, ?_⟩⟩
        exact crowd_shares _ (List.mem_toFinset.mp old)
    have distinct : crowdRoots.Nodup := by decide +kernel
    have sixteen : crowdRoots.length = 16 := by decide
    have size : 17 ≤ (sharers s'.kernel.mem s'.roots (poolVa 5)).card := by
      refine le_trans (Nat.le_of_eq ?_) (Finset.card_le_card all)
      rw [Finset.card_insert_of_notMem fun member => new (List.mem_toFinset.mp member),
        List.toFinset_card_of_nodup distinct, sixteen]
    have most := adequate _ _ valid'
    rw [count] at most
    exact absurd (size.trans most) (by decide)
  · exact absurd enough (by rw [show machine crowdCells [80, 81, 82, 83] = crowd.kernel from rfl, dry]; exact
      Bool.false_ne_true)

end Anthill
