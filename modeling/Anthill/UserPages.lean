import Anthill.KernelPool
import Mathlib.Tactic.Set

set_option autoImplicit false

namespace Anthill

open Radix

-- The walk that mem_user_find_empty, mem_user_get_kaddr and mem_user_unmap_page make for `vaddr`:
-- `miss` where an entry is not valid, `hit` at the block or page entry it ends in.
def userWalk {α : Type} (m : Mem) (tranTable vaddr : Word) (miss : α) (hit : Word → Idx → α) : α :=
  let entry0 := m tranTable (tableIdx vaddr 39)
  let level1 := mmuGetVaddr entry0
  let entry1 := m level1 (tableIdx vaddr 30)
  let level2 := mmuGetVaddr entry1
  let entry2 := m level2 (tableIdx vaddr 21)
  let level3 := mmuGetVaddr entry2
  let entry3 := m level3 (leafIdx vaddr)
  if !mmuIsValid entry0 then miss
  else if !mmuIsValid entry1 then miss
  else if mmuIsBlock entry1 then hit level1 (tableIdx vaddr 30)
  else if !mmuIsValid entry2 then miss
  else if mmuIsBlock entry2 then hit level2 (tableIdx vaddr 21)
  else if !mmuIsValid entry3 then miss
  else hit level3 (leafIdx vaddr)

-- Whether one page of the range that mem_user_find_empty tries is taken.
def pageBusy (m : Mem) (tranTable vaddr : Word) : Bool :=
  userWalk m tranTable vaddr false (fun _ _ => true)

def pageAt (addr : Word) (n : Nat) : Word := addr + BitVec.ofNat 64 n * pageSize

-- The first taken page among `count` pages, counting from page `p` of the range at `addr`.
def firstBusy (m : Mem) (tranTable addr : Word) (p : Nat) : Nat → Option Nat
  | 0 => none
  | count + 1 =>
    if pageBusy m tranTable (pageAt addr p) then some p
    else firstBusy m tranTable addr (p + 1) count

-- The search loop has no bound of its own, so it runs on fuel.
def memUserFindEmpty (m : Mem) (tranTable : Word) (pageCnt : Nat) : Nat → Word → Option Word
  | 0, _ => none
  | fuel + 1, addr =>
    match firstBusy m tranTable addr 0 pageCnt with
    | none => some addr
    | some p => memUserFindEmpty m tranTable pageCnt fuel (pageAt addr (p + 1))

-- NULL is the address zero.
def memUserGetKaddr (m : Mem) (tranTable vaddr : Word) : Word :=
  userWalk m tranTable vaddr 0 (fun level i => mmuGetVaddr (m level i))

def userAttr : MemPerm → Option Word
  | .ro => some (attApRoRo ||| attPxnNoexec ||| attUxnNoexec)
  | .rw => some (attApRwRw ||| attPxnNoexec ||| attUxnNoexec)
  | .ex => some (attApRoRo ||| attPxnNoexec ||| attUxnExec)
  | .other _ => none

def memAttr : MemAttr → Word
  | .norm => attNormal
  | .devc => attDevice

def freeKernelPages : List Word → Kernel → Except Halt Kernel
  | [], k => .ok k
  | page :: pages, k =>
    match memKernelFreePage k page with
    | .error halt => .error halt
    | .ok (.ok, k) => freeKernelPages pages k
    | .ok (_, _) => .error (.panic "Tried to de-allocate unmapped kernel page")

-- Give back the kernel pages taken so far and return `err`. Entries that name them stay.
def mapRollback (k : Kernel) (pages : List Word) (err : KernErr) : Except Halt (KernErr × Kernel) :=
  (freeKernelPages pages k).map fun k => (err, k)

-- One round of the level loop of mem_user_map_page; `.error` is an early return.
def mapStep (k : Kernel) (level : Word) (pages : List Word) (i : Idx) :
    Except (Except Halt (KernErr × Kernel)) (Word × List Word × Kernel) :=
  if mmuIsValid (k.mem level i) then .ok (mmuGetVaddr (k.mem level i), pages, k)
  else
    match memKernelAllocPage k .rw with
    | (⟨page, .ok⟩, k) =>
      .ok (mmuGetVaddr (tableEntry page), pages ++ [page],
        (k.writePage page (fun _ => 0)).write level i (tableEntry page))
    | (⟨_, err⟩, k) => .error (mapRollback k pages err)

def mapLevels : Kernel → Word → List Word → List Idx →
    Except (Except Halt (KernErr × Kernel)) (Word × List Word × Kernel)
  | k, level, pages, [] => .ok (level, pages, k)
  | k, level, pages, i :: idx =>
    match mapStep k level pages i with
    | .error early => .error early
    | .ok (level, pages, k) => mapLevels k level pages idx

def memUserMapPage (k : Kernel) (tranTable vaddr paddr : Word) (perm : MemPerm) (attr : MemAttr) :
    Except Halt (KernErr × Kernel) :=
  match userAttr perm with
  | none => .ok (.memFlg, k)
  | some pattr =>
    match mapLevels k tranTable [] (upperIdx vaddr) with
    | .error early => early
    | .ok (level3, pages, k) =>
      if mmuIsValid (k.mem level3 (leafIdx vaddr)) then mapRollback k pages .memExs
      else
        let leaf := userLeaf paddr (pattr ||| memAttr attr)
        .ok (.ok, k.write level3 (leafIdx vaddr) leaf)

-- The last statements of each case of mem_user_unmap_page: a page that only this entry counts
-- is handed to the caller and its entry is left, any other entry is cleared.
def unmapEntry (k : Kernel) (level : Word) (i : Idx) : MemRAddr × Kernel :=
  let freed := mmuMarkFreed (k.mem level i)
  if freed.1 = 0 then (⟨mmuGetVaddr freed.2, .ok⟩, k.write level i freed.2)
  else (⟨0, .ok⟩, (k.write level i freed.2).write level i 0)

def memUserUnmapPage (k : Kernel) (tranTable vaddr : Word) : MemRAddr × Kernel :=
  userWalk k.mem tranTable vaddr (⟨0, .memUnm⟩, k) (unmapEntry k)

abbrev Pos := Word → Option (List Idx)

/-- The user translation tables of a set of processes. `pos` gives each table page the indices
that lead to it, so a page shared between processes is reached by the same indices in each. -/
structure UserLayout (k : Kernel) (pos : Pos) : Prop where
  typed : Typed nav 3 k.mem pos
  inUse : ∀ p q, pos p = some q → InUse k p
  table : ∀ p q i, pos p = some q → q.length = 1 ∨ q.length = 2 →
    mmuIsValid (k.mem p i) = true → mmuIsBlock (k.mem p i) = false

theorem nav_of_valid (entry : Word) (valid : mmuIsValid entry = true) :
    nav entry = some (mmuGetVaddr entry) := by
  simp [nav, valid]

theorem nav_of_invalid (entry : Word) (invalid : mmuIsValid entry = false) : nav entry = none := by
  simp [nav, invalid]

section Shape

variable {m : Mem} {pos : Pos} (typed : Typed nav 3 m pos)
  (table : ∀ p q i, pos p = some q → q.length = 1 ∨ q.length = 2 → mmuIsValid (m p i) = true →
    mmuIsBlock (m p i) = false) (t : Word) (root : pos t = some [])

include typed table root

theorem userWalk_node {α : Type} (vaddr : Word) (miss : α) (hit : Word → Idx → α) :
    userWalk m t vaddr miss hit =
      match node nav m t (upperIdx vaddr) with
      | none => miss
      | some level3 =>
        if mmuIsValid (m level3 (leafIdx vaddr)) then hit level3 (leafIdx vaddr) else miss := by
  have child (q : List Idx) (p : Word) (i : Idx) (short : q.length < 3) (here : pos p = some q)
      (valid : mmuIsValid (m p i) = true) : pos (mmuGetVaddr (m p i)) = some (q ++ [i]) :=
    typed.child p q i _ here short (nav_of_valid _ valid)
  unfold userWalk upperIdx
  cases valid0 : mmuIsValid (m t (tableIdx vaddr 39)) with
  | false => simp [node, valid0, nav_of_invalid _ valid0]
  | true =>
    have at1 := child [] t _ (by decide) root valid0
    set a := mmuGetVaddr (m t (tableIdx vaddr 39)) with ha
    cases valid1 : mmuIsValid (m a (tableIdx vaddr 30)) with
    | false => simp [node, valid0, nav_of_valid _ valid0, ← ha, valid1, nav_of_invalid _ valid1]
    | true =>
      have table1 := table a _ _ at1 (.inl rfl) valid1
      have at2 := child _ a _ (by simp) at1 valid1
      set b := mmuGetVaddr (m a (tableIdx vaddr 30)) with hb
      cases valid2 : mmuIsValid (m b (tableIdx vaddr 21)) with
      | false =>
        simp [node, valid0, nav_of_valid _ valid0, ← ha, valid1, nav_of_valid _ valid1, ← hb, valid2,
          nav_of_invalid _ valid2, table1]
      | true =>
        have table2 := table b _ _ at2 (.inr rfl) valid2
        simp [node, valid0, nav_of_valid _ valid0, ← ha, valid1, nav_of_valid _ valid1, ← hb, valid2,
          nav_of_valid _ valid2, table1, table2]
        cases mmuIsValid (m (mmuGetVaddr (m b (tableIdx vaddr 21))) (leafIdx vaddr)) <;> rfl

theorem getKaddr_node (vaddr : Word) :
    memUserGetKaddr m t vaddr = (node nav m t (mmuGetTableIdx vaddr)).getD 0 := by
  have full : node nav m t (mmuGetTableIdx vaddr) =
      (node nav m t (upperIdx vaddr)).bind fun level3 => nav (m level3 (leafIdx vaddr)) :=
    node_concat nav m t (upperIdx vaddr) (leafIdx vaddr)
  rw [memUserGetKaddr, userWalk_node typed table t root, full]
  cases node nav m t (upperIdx vaddr) with
  | none => rfl
  | some level3 => cases valid : mmuIsValid (m level3 (leafIdx vaddr)) <;> simp [nav, valid]

end Shape

section Walks

variable (k : Kernel) (pos : Pos) (layout : UserLayout k pos)
  (t : Word) (root : pos t = some [])

include layout root

theorem layout_node (q : List Idx) (p : Word) (short : q.length ≤ 3)
    (found : node nav k.mem t q = some p) : pos p = some q :=
  layout.typed.node_pos t p q root short found

omit root in
theorem layout_child (i : Idx) (q : List Idx) (p : Word) (short : q.length < 3)
    (here : pos p = some q) (valid : mmuIsValid (k.mem p i) = true) :
    pos (mmuGetVaddr (k.mem p i)) = some (q ++ [i]) :=
  layout.typed.child p q i _ here short (nav_of_valid _ valid)

theorem userWalk_eq {α : Type} (vaddr : Word) (miss : α) (hit : Word → Idx → α) :
    userWalk k.mem t vaddr miss hit =
      match node nav k.mem t (upperIdx vaddr) with
      | none => miss
      | some level3 =>
        if mmuIsValid (k.mem level3 (leafIdx vaddr)) then hit level3 (leafIdx vaddr) else miss :=
  userWalk_node layout.typed layout.table t root vaddr miss hit

omit layout root in
theorem node_full (vaddr : Word) :
    node nav k.mem t (mmuGetTableIdx vaddr) =
      (node nav k.mem t (upperIdx vaddr)).bind fun level3 => nav (k.mem level3 (leafIdx vaddr)) :=
  node_concat nav k.mem t (upperIdx vaddr) (leafIdx vaddr)

theorem memUserGetKaddr_eq (vaddr : Word) :
    memUserGetKaddr k.mem t vaddr = (node nav k.mem t (mmuGetTableIdx vaddr)).getD 0 :=
  getKaddr_node layout.typed layout.table t root vaddr

theorem pageBusy_eq (vaddr : Word) :
    pageBusy k.mem t vaddr = (node nav k.mem t (mmuGetTableIdx vaddr)).isSome := by
  rw [pageBusy, userWalk_eq k pos layout t root, node_full]
  cases node nav k.mem t (upperIdx vaddr) with
  | none => rfl
  | some level3 => cases valid : mmuIsValid (k.mem level3 (leafIdx vaddr)) <;> simp [nav, valid]

omit layout root in
theorem unmapEntry_owned (level : Word) (i : Idx) (zero : refCount (k.mem level i) = 0) :
    unmapEntry k level i = (⟨mmuGetVaddr (k.mem level i), .ok⟩, k) := by
  simp only [unmapEntry, mmuMarkFreed_fst, zero, if_true, mmuMarkFreed_zero _ zero, Kernel.write_self]

omit layout root in
theorem unmapEntry_shared (level : Word) (i : Idx) (counted : refCount (k.mem level i) ≠ 0) :
    unmapEntry k level i = (⟨0, .ok⟩, k.write level i 0) := by
  simp only [unmapEntry, mmuMarkFreed_fst, counted, if_false, Kernel.write_write]

/-- mem_user_unmap_page does nothing where nothing is mapped, hands over a page whose counter is
zero without touching its entry, and clears any other entry. -/
theorem memUserUnmapPage_cases (vaddr : Word) :
    (node nav k.mem t (mmuGetTableIdx vaddr) = none ∧
      memUserUnmapPage k t vaddr = (⟨0, .memUnm⟩, k)) ∨
    ∃ level3, node nav k.mem t (upperIdx vaddr) = some level3 ∧
      mmuIsValid (k.mem level3 (leafIdx vaddr)) = true ∧
      ((refCount (k.mem level3 (leafIdx vaddr)) = 0 ∧ memUserUnmapPage k t vaddr =
          (⟨mmuGetVaddr (k.mem level3 (leafIdx vaddr)), .ok⟩, k)) ∨
        (refCount (k.mem level3 (leafIdx vaddr)) ≠ 0 ∧ memUserUnmapPage k t vaddr =
          (⟨0, .ok⟩, k.write level3 (leafIdx vaddr) 0))) := by
  rw [memUserUnmapPage, userWalk_eq k pos layout t root, node_full]
  cases node nav k.mem t (upperIdx vaddr) with
  | none => exact .inl ⟨rfl, rfl⟩
  | some level3 =>
    cases valid : mmuIsValid (k.mem level3 (leafIdx vaddr)) with
    | false => exact .inl ⟨by simp [nav, valid], by simp [valid]⟩
    | true =>
      refine .inr ⟨level3, rfl, valid, ?_⟩
      by_cases zero : refCount (k.mem level3 (leafIdx vaddr)) = 0
      · exact .inl ⟨zero, by simp only [valid, if_true, unmapEntry_owned k _ _ zero]⟩
      · exact .inr ⟨zero, by simp only [valid, if_true, unmapEntry_shared k _ _ zero]⟩

end Walks

theorem UserLayout.congr {k k' : Kernel} {pos : Pos}
    (layout : UserLayout k pos) (same : ∀ p q, pos p = some q → k'.mem p = k.mem p)
    (used : ∀ p q, pos p = some q → InUse k' p) : UserLayout k' pos where
  typed := layout.typed.congr fun p q i position => by rw [same p q position]
  inUse := used
  table p q i position upper := by rw [same p q position]; exact layout.table p q i position upper

theorem UserLayout.fresh {k : Kernel} {pos : Pos} (layout : UserLayout k pos)
    (va : Word) (free : Free k va) : pos va = none := by
  cases position : pos va with
  | none => rfl
  | some q => exact absurd free (not_free_of_marked k va (layout.inUse va q position).1)

theorem UserLayout.allocated {k k' : Kernel} {pos : Pos} {va : Word}
    (layout : UserLayout k pos) (allocated : Allocated k k' va) : UserLayout k' pos :=
  layout.congr (fun p q position => (allocated.keeps p (layout.inUse p q position)).2)
    (fun p q position => (allocated.keeps p (layout.inUse p q position)).1)

-- A write to one entry that keeps the tables typed.
theorem UserLayout.put {k : Kernel} {pos : Pos} (layout : UserLayout k pos)
    (p : Word) (q : List Idx) (i : Idx) (e : Word) (here : pos p = some q)
    (fits : ∀ c, q.length < 3 → nav e = some c → pos c = some (q ++ [i]))
    (table : q.length = 1 ∨ q.length = 2 → mmuIsValid e = true → mmuIsBlock e = false) :
    UserLayout (k.write p i e) pos where
  typed := layout.typed.put p i e fun r c position short found =>
    (Option.some.inj (here.symm.trans position)) ▸ fits c
      ((Option.some.inj (here.symm.trans position)) ▸ short) found
  inUse a r position := by
    have used := layout.inUse a r position
    exact ((sameKernel_put k p i e (layout.inUse p q here).2).inUse a).mpr used
  table a r j position upper valid := by
    by_cases same : a = p ∧ j = i
    · obtain ⟨rfl, rfl⟩ := same
      have path : q = r := Option.some.inj (here.symm.trans position)
      subst path
      simp only [Kernel.write_mem, put_same] at valid ⊢
      exact table upper valid
    · have away : a ≠ p ∨ j ≠ i := not_and_or.mp same
      simp only [Kernel.write_mem, put_other _ _ _ _ _ _ away] at valid ⊢
      exact layout.table a r j position upper valid

theorem UserLayout.grow {k : Kernel} {pos : Pos} (layout : UserLayout k pos)
    (va : Word) (q : List Idx) (outside : pos va = none) (used : InUse k va) (short : q.length ≤ 3) :
    UserLayout (k.writePage va (fun _ => 0)) (Function.update pos va (some q)) := by
  have row (p : Word) (other : p ≠ va) : putPage k.mem va (fun _ => 0) p = k.mem p :=
    putPage_other _ _ _ _ other
  have old (p : Word) (r : List Idx) (position : pos p = some r) : p ≠ va := by
    rintro rfl
    rw [outside] at position
    cases position
  constructor
  case typed =>
    have kept : Typed nav 3 (putPage k.mem va (fun _ => 0)) pos :=
      layout.typed.congr fun p r i position => by rw [row p (old p r position)]
    refine kept.extend va q outside short fun i c _ found => ?_
    rw [putPage_same, nav_of_invalid _ isValid_zero] at found
    cases found
  case inUse =>
    intro p r position
    refine ((sameKernel_putPage k va _ used.2).inUse p).mpr ?_
    rcases extend_cases position with ⟨rfl, _⟩ | ⟨_, before⟩
    · exact used
    · exact layout.inUse p r before
  case table =>
    intro p r i position upper valid
    rcases extend_cases position with ⟨rfl, _⟩ | ⟨other, before⟩
    · simp only [Kernel.writePage_mem, putPage_same, isValid_zero] at valid
      cases valid
    · simp only [Kernel.writePage_mem, row p other] at valid ⊢
      exact layout.table p r i before upper valid

/-- A translation table among the tables that `pos` describes. -/
structure Process (k : Kernel) (pos : Pos) (t : Word) : Prop where
  wf : KernelWf k
  layout : UserLayout k pos
  root : pos t = some []

-- The pages that the level-3 entries of a table map.
def Maps (k : Kernel) (t : Word) (path : List Idx) (p : Word) : Prop :=
  path.length = 4 ∧ node nav k.mem t path = some p

end Anthill
