import Anthill.PageOwnership

set_option autoImplicit false

namespace Anthill

open Radix

/-- The translation tables of one process. `pos` gives each table page the indices that lead to it, and
entries of levels 1 and 2 may be blocks. -/
structure BlockTree (m : Mem) (pos : Pos) (t : Word) : Prop where
  root : pos t = some []
  top : ∀ p i, pos p = some [] → mmuIsValid (m p i) = true → pos (mmuGetVaddr (m p i)) = some [i]
  down : ∀ p q i, pos p = some q → q.length = 1 ∨ q.length = 2 → mmuIsValid (m p i) = true →
    mmuIsBlock (m p i) = false → pos (mmuGetVaddr (m p i)) = some (q ++ [i])

theorem UserLayout.blockTree {k : Kernel} {pos : Pos} {t : Word} (layout : UserLayout k pos)
    (root : pos t = some []) : BlockTree k.mem pos t where
  root := root
  top p i here valid := layout_child k pos layout i [] p (by decide) here valid
  down p q i here upper valid _ := layout_child k pos layout i q p (by omega) here valid

-- The block or page entry in which the walk for `vaddr` ends.
def userEntry (m : Mem) (tranTable vaddr : Word) : Word :=
  userWalk m tranTable vaddr 0 fun level i => m level i

-- The indices that lead to that entry: those of a block at level 1 or 2, or all four.
def userExtent (m : Mem) (tranTable vaddr : Word) : List Idx :=
  let level1 := mmuGetVaddr (m tranTable (tableIdx vaddr 39))
  let entry1 := m level1 (tableIdx vaddr 30)
  let entry2 := m (mmuGetVaddr entry1) (tableIdx vaddr 21)
  if mmuIsBlock entry1 then (mmuGetTableIdx vaddr).take 2
  else if mmuIsBlock entry2 then (mmuGetTableIdx vaddr).take 3
  else mmuGetTableIdx vaddr

/-- What mem_user_unmap_page is for: a mapped page or block is gone after it, and nothing else is. -/
def Unmaps (k : Kernel) (tranTable vaddr : Word) : Prop :=
  let result := memUserUnmapPage k tranTable vaddr
  if pageBusy k.mem tranTable vaddr then
    result.1.err = .ok ∧ memUserGetKaddr result.2.mem tranTable vaddr = 0 ∧
      (∀ u, ¬ userExtent k.mem tranTable vaddr <+: mmuGetTableIdx u →
        memUserGetKaddr result.2.mem tranTable u = memUserGetKaddr k.mem tranTable u ∧
        userEntry result.2.mem tranTable u = userEntry k.mem tranTable u) ∧
      result.1.addr =
        if refCount (userEntry k.mem tranTable vaddr) = 0 then memUserGetKaddr k.mem tranTable vaddr else 0
  else result = (⟨0, .memUnm⟩, k)

theorem mmuGetTableIdx_eq (v : Word) :
    mmuGetTableIdx v = [tableIdx v 39, tableIdx v 30, tableIdx v 21, leafIdx v] := rfl

-- A write to a table leaves the tables above it as they are.
theorem put_depth {pos : Pos} (m : Mem) (p level : Word) (q r : List Idx) (j i : Idx) (e : Word) (at' : pos p = some q)
    (here : pos level = some r) (higher : q.length < r.length) : put m level i e p j = m p j := by
  refine put_other _ _ _ _ _ _ (.inl ?_)
  rintro rfl
  rw [at'] at here
  obtain rfl := Option.some.inj here
  exact lt_irrefl _ higher

section Tree

variable {m : Mem} {pos : Pos} {t : Word} (tree : BlockTree m pos t)

include tree

/-- A write to one entry is seen only by the walks that pass through it. -/
theorem BlockTree.walk_other {α : Type} (p : Word) (q : List Idx) (i : Idx) (e : Word) (here : pos p = some q)
    (u : Word) (outside : ¬ q ++ [i] <+: mmuGetTableIdx u) (miss : α) (f : Word → α) :
    userWalk (put m p i e) t u miss (fun level j => f (put m p i e level j)) =
      userWalk m t u miss (fun level j => f (m level j)) := by
  -- The entry that the walk reads after the indices `r` is not the one written.
  have kept (level : Word) (r : List Idx) (j : Idx) (at' : pos level = some r)
      (before : r ++ [j] <+: mmuGetTableIdx u) : put m p i e level j = m level j := by
    refine put_other _ _ _ _ _ _ ?_
    by_contra both
    push Not at both
    obtain ⟨rfl, rfl⟩ := both
    rw [here] at at'
    obtain rfl := Option.some.inj at'
    exact outside before
  have kept0 := kept t [] (tableIdx u 39) tree.root ⟨_, rfl⟩
  unfold userWalk
  simp only [kept0]
  cases valid0 : mmuIsValid (m t (tableIdx u 39)) with
  | false => simp
  | true =>
    have at1 := tree.top t _ tree.root valid0
    have kept1 := kept _ _ (tableIdx u 30) at1 ⟨_, rfl⟩
    simp only [kept1]
    generalize mmuGetVaddr (m t (tableIdx u 39)) = level1 at at1 kept1 ⊢
    cases valid1 : mmuIsValid (m level1 (tableIdx u 30)) with
    | false => simp
    | true =>
      cases block1 : mmuIsBlock (m level1 (tableIdx u 30)) with
      | true => simp
      | false =>
        have at2 := tree.down _ _ _ at1 (.inl rfl) valid1 block1
        have kept2 := kept _ _ (tableIdx u 21) at2 ⟨_, rfl⟩
        simp only [kept2]
        generalize mmuGetVaddr (m level1 (tableIdx u 30)) = level2 at at2 kept2 ⊢
        cases valid2 : mmuIsValid (m level2 (tableIdx u 21)) with
        | false => simp
        | true =>
          cases block2 : mmuIsBlock (m level2 (tableIdx u 21)) with
          | true => simp
          | false =>
            have at3 := tree.down _ _ _ at2 (.inr rfl) valid2 block2
            simp only [kept _ _ (leafIdx u) at3 ⟨[], rfl⟩]

/-- The walk for an address that is mapped ends in an entry `i` of `level`. It still comes there when that
entry is changed, and misses when the entry is made invalid. -/
structure BlockTree.Ends (tree : BlockTree m pos t) (v level : Word) (q : List Idx) (i : Idx) : Prop where
  here : pos level = some q
  extent : userExtent m t v = q ++ [i]
  hits : ∀ {α : Type} (miss : α) (hit : Word → Idx → α), userWalk m t v miss hit = hit level i
  misses : ∀ {α : Type} (e : Word) (miss : α) (hit : Word → Idx → α), mmuIsValid e = false →
    userWalk (put m level i e) t v miss hit = miss

theorem BlockTree.ends (v : Word) (busy : pageBusy m t v = true) : ∃ level q i, tree.Ends v level q i := by
  unfold pageBusy userWalk at busy
  have root := tree.root
  cases valid0 : mmuIsValid (m t (tableIdx v 39)) with
  | false => simp [valid0] at busy
  | true =>
  have at1 := tree.top t _ root valid0
  obtain ⟨a, ha⟩ : ∃ a, mmuGetVaddr (m t (tableIdx v 39)) = a := ⟨_, rfl⟩
  rw [ha] at at1
  cases valid1 : mmuIsValid (m a (tableIdx v 30)) with
  | false => simp [valid0, ha, valid1] at busy
  | true =>
  cases block1 : mmuIsBlock (m a (tableIdx v 30)) with
  | true =>
    refine ⟨a, _, tableIdx v 30, at1, ?_, fun miss hit => ?_, fun e miss hit invalid => ?_⟩
    · simp only [userExtent, ha, block1, if_true]
      rfl
    · simp [userWalk, valid0, ha, valid1, block1]
    · have kept0 := put_depth m t a [] _ (tableIdx v 39) (tableIdx v 30) e root at1 (by simp)
      simp [userWalk, kept0, valid0, ha, put_same, invalid]
  | false =>
  have at2 := tree.down _ _ _ at1 (.inl rfl) valid1 block1
  obtain ⟨b, hb⟩ : ∃ b, mmuGetVaddr (m a (tableIdx v 30)) = b := ⟨_, rfl⟩
  rw [hb] at at2
  cases valid2 : mmuIsValid (m b (tableIdx v 21)) with
  | false => simp [valid0, ha, valid1, block1, hb, valid2] at busy
  | true =>
  cases block2 : mmuIsBlock (m b (tableIdx v 21)) with
  | true =>
    refine ⟨b, _, tableIdx v 21, at2, ?_, fun miss hit => ?_, fun e miss hit invalid => ?_⟩
    · simp only [userExtent, ha, block1, hb, block2, if_true]
      rfl
    · simp [userWalk, valid0, ha, valid1, block1, hb, valid2, block2]
    · have kept0 := put_depth m t b [] _ (tableIdx v 39) (tableIdx v 21) e root at2 (by simp)
      have kept1 := put_depth m a b _ _ (tableIdx v 30) (tableIdx v 21) e at1 at2 (by simp)
      simp [userWalk, kept0, valid0, ha, kept1, valid1, block1, hb, put_same, invalid]
  | false =>
  have at3 := tree.down _ _ _ at2 (.inr rfl) valid2 block2
  obtain ⟨c, hc⟩ : ∃ c, mmuGetVaddr (m b (tableIdx v 21)) = c := ⟨_, rfl⟩
  rw [hc] at at3
  cases valid3 : mmuIsValid (m c (leafIdx v)) with
  | false => simp [valid0, ha, valid1, block1, hb, valid2, block2, hc, valid3] at busy
  | true =>
    refine ⟨c, _, leafIdx v, at3, ?_, fun miss hit => ?_, fun e miss hit invalid => ?_⟩
    · simp only [userExtent, ha, block1, hb, block2]
      rfl
    · simp [userWalk, valid0, ha, valid1, block1, hb, valid2, block2, hc, valid3]
    · have kept0 := put_depth m t c [] _ (tableIdx v 39) (leafIdx v) e root at3 (by simp)
      have kept1 := put_depth m a c _ _ (tableIdx v 30) (leafIdx v) e at1 at3 (by simp)
      have kept2 := put_depth m b c _ _ (tableIdx v 21) (leafIdx v) e at2 at3 (by simp)
      simp [userWalk, kept0, valid0, ha, kept1, valid1, block1, hb, kept2, valid2, block2, hc, put_same, invalid]

end Tree

theorem unmapped_walk {α : Type} (m : Mem) (t v : Word) (free : pageBusy m t v = false) (miss : α)
    (hit : Word → Idx → α) : userWalk m t v miss hit = miss := by
  unfold pageBusy userWalk at free
  unfold userWalk
  simp only [] at free ⊢
  split_ifs at free ⊢ <;> rfl

/-- mem_user_unmap_page deletes the page or block of an address exactly when nothing is mapped there or
more than this entry counts what is. -/
theorem unmapPage_deletes (k : Kernel) (pos : Pos) (t v : Word) (tree : BlockTree k.mem pos t) :
    Unmaps k t v ↔ (pageBusy k.mem t v = true → refCount (userEntry k.mem t v) ≠ 0) := by
  cases busy : pageBusy k.mem t v with
  | false =>
    have misses : memUserUnmapPage k t v = (⟨0, .memUnm⟩, k) := unmapped_walk k.mem t v busy _ _
    simp [Unmaps, busy, misses]
  | true =>
    obtain ⟨level, q, i, ends⟩ := tree.ends v busy
    have entry : userEntry k.mem t v = k.mem level i := ends.hits _ _
    have call : memUserUnmapPage k t v = unmapEntry k level i := ends.hits _ _
    have kaddr : memUserGetKaddr k.mem t v = mmuGetVaddr (k.mem level i) := ends.hits _ _
    simp only [Unmaps, busy, if_true, call, entry, forall_const]
    by_cases zero : refCount (k.mem level i) = 0
    · rw [unmapEntry_owned k level i zero]
      refine iff_of_false (fun unmaps => ?_) (fun claim => claim zero)
      exact getVaddr_ne_zero _ (kaddr ▸ unmaps.2.1)
    · rw [unmapEntry_shared k level i zero]
      refine iff_of_true ⟨rfl, ?_, fun u outside => ?_, (if_neg zero).symm⟩ zero
      · exact ends.misses 0 _ _ isValid_zero
      · rw [ends.extent] at outside
        exact ⟨tree.walk_other level q i 0 ends.here u outside 0 mmuGetVaddr,
          tree.walk_other level q i 0 ends.here u outside 0 id⟩

theorem unmapPage_deletes_shared : Unmaps (machine (onePage 1) []) (poolVa 4) 0x200000 := by
  have fits : Fits (onePage 1) [] onePageTables := by decide +kernel
  have root : posOf onePageTables (poolVa 4) = some [] := by decide +kernel
  have process := machine_process _ _ _ fits _ root
  exact (unmapPage_deletes _ _ _ _ (process.layout.blockTree root)).mpr fun _ => by decide +kernel

theorem unmapPage_keeps_entry : ¬ ∀ (k : Kernel) (pos : Pos) (t v : Word), BlockTree k.mem pos t → Unmaps k t v := by
  intro claim
  have fits : Fits (onePage 0) [] onePageTables := by decide +kernel
  have root : posOf onePageTables (poolVa 4) = some [] := by decide +kernel
  have process := machine_process _ _ _ fits _ root
  have unmaps := claim _ _ (poolVa 4) 0x200000 (process.layout.blockTree root)
  have mapped : pageBusy (machine (onePage 0) []).mem (poolVa 4) 0x200000 = true := by decide +kernel
  have stays : memUserGetKaddr (memUserUnmapPage (machine (onePage 0) []) (poolVa 4) 0x200000).2.mem (poolVa 4)
      0x200000 = poolVa 8 := by decide +kernel
  simp only [Unmaps, mapped, if_true, stays] at unmaps
  exact absurd unmaps.2.1 (by decide)

end Anthill
