import Anthill.LeafEntries
import Anthill.Msgbuf
import Anthill.UnmapPage

set_option autoImplicit false

namespace Anthill

open Radix

/-- A page of a process, by the process's table and its address there. -/
structure UserPage where
  table : Word
  vaddr : Word

def UserPage.entry (page : UserPage) (m : Mem) : Word := userEntry m page.table page.vaddr

-- The entry of a level-3 table that leads to the page.
def UserPage.slot (page : UserPage) (m : Mem) : Option (Word × Idx) :=
  (node nav m page.table (upperIdx page.vaddr)).map fun level3 => (level3, leafIdx page.vaddr)

-- The kernel's address of the page, or NULL.
def UserPage.kaddr (page : UserPage) (m : Mem) : Word := memUserGetKaddr m page.table page.vaddr

/-- Pages that can be unmapped one after the other: all are mapped, and the entry of one that another entry counts is
there once, as it is cleared. -/
structure UnmapsAll (m : Mem) (pages : List UserPage) : Prop where
  mapped : ∀ page, page ∈ pages → page.entry m ≠ 0
  once : pages.Pairwise fun page page' => page.slot m = page'.slot m → refCount (page.entry m) = 0

theorem UnmapsAll.nil (m : Mem) : UnmapsAll m [] := ⟨fun _ listed => (by cases listed), List.Pairwise.nil⟩

theorem UnmapsAll.left {m : Mem} {pages more : List UserPage} (all : UnmapsAll m (pages ++ more)) : UnmapsAll m pages :=
  ⟨fun page listed => all.mapped page (List.mem_append_left more listed), (List.pairwise_append.mp all.once).1⟩

theorem unmapsAll_cons (m : Mem) (page : UserPage) (pages : List UserPage) : UnmapsAll m (page :: pages) ↔
    page.entry m ≠ 0 ∧ (∀ page', page' ∈ pages → page.slot m = page'.slot m → refCount (page.entry m) = 0) ∧
      UnmapsAll m pages := by
  constructor
  · intro all
    obtain ⟨first, rest⟩ := List.pairwise_cons.mp all.once
    exact ⟨all.mapped page List.mem_cons_self, first, fun page' listed =>
      all.mapped page' (List.mem_cons_of_mem _ listed), rest⟩
  · rintro ⟨mapped, first, rest⟩
    refine ⟨fun page' listed => ?_, List.pairwise_cons.mpr ⟨first, rest.once⟩⟩
    rcases List.mem_cons.mp listed with rfl | later
    · exact mapped
    · exact rest.mapped page' later

theorem range'_pairwise (P : Nat → Nat → Prop) (i count : Nat) :
    (List.range' i count).Pairwise P ↔ ∀ p q, i ≤ p → p < q → q < i + count → P p q := by
  rw [List.pairwise_iff_getElem]
  simp only [List.length_range', List.getElem_range', Nat.one_mul]
  constructor
  · intro all p q low less high
    have pair := all (p - i) (q - i) (by omega) (by omega) (by omega)
    rwa [Nat.add_sub_cancel' low, Nat.add_sub_cancel' (by omega)] at pair
  · intro all p q _ _ less
    exact all _ _ (by omega) (by omega) (by omega)

section Unmap

variable {k : Kernel} {pos : Pos} {t : Word} (process : Process k pos t)

include process

/-- mem_user_unmap_page clears the entry of a page that another one counts, and does nothing else. -/
theorem unmapPage_outcome (v : Word) :
    (userEntry k.mem t v = 0 ∧ memUserUnmapPage k t v = (⟨0, .memUnm⟩, k)) ∨
    (userEntry k.mem t v ≠ 0 ∧ refCount (userEntry k.mem t v) = 0 ∧ ∃ page, memUserUnmapPage k t v = (⟨page, .ok⟩, k)) ∨
    (userEntry k.mem t v ≠ 0 ∧ refCount (userEntry k.mem t v) ≠ 0 ∧ ∃ level3, pos level3 = some (upperIdx v) ∧
      node nav k.mem t (upperIdx v) = some level3 ∧
      memUserUnmapPage k t v = (⟨0, .ok⟩, k.write level3 (leafIdx v) 0)) := by
  rcases memUserUnmapPage_cases k pos process.layout t process.root v with
    ⟨missing, result⟩ | ⟨level3, walk, valid, outcome⟩
  · exact .inl ⟨(process.lacks_entry v).mp missing, result⟩
  · have entry : userEntry k.mem t v = k.mem level3 (leafIdx v) := by
      rw [process.entry_eq, walk]
      simp only [valid, if_true]
    have mapped : userEntry k.mem t v ≠ 0 := entry ▸ valid_ne_zero valid
    rcases outcome with ⟨zero, result⟩ | ⟨counted, result⟩
    · exact .inr (.inl ⟨mapped, entry ▸ zero, _, result⟩)
    · have here := layout_node k pos process.layout t process.root (upperIdx v) level3 (by simp [upperIdx]) walk
      exact .inr (.inr ⟨mapped, entry ▸ counted, level3, here, walk, result⟩)

theorem unmapPage_stays (v : Word) : Process (memUserUnmapPage k t v).2 pos t := by
  rcases unmapPage_outcome process v with ⟨_, result⟩ | ⟨_, _, page, result⟩ | ⟨_, _, level3, here, walk, result⟩ <;>
    rw [result]
  · exact process
  · exact process
  · exact process.clear level3 (leafIdx v) (upperIdx v) here (by rfl)

-- A write to a level-3 table leaves the walks to level-3 tables as they are.
theorem clear_upper {level3 v : Word} (here : pos level3 = some (upperIdx v)) (u : Word) :
    node nav (k.write level3 (leafIdx v) 0).mem t (upperIdx u) = node nav k.mem t (upperIdx u) := by
  refine process.layout.typed.node_frame t level3 (upperIdx v) (leafIdx v) ?_ here process.root (upperIdx u)
    (by simp [upperIdx]) ?_
  · intro p _ i _ away
    rw [Kernel.write_mem, put_other _ _ _ _ _ _ away]
  · rintro ⟨through, _⟩
    have deeper := through.length_le
    simp [upperIdx] at deeper

theorem clear_entry {level3 v : Word} (here : pos level3 = some (upperIdx v)) (u : Word) :
    userEntry (k.write level3 (leafIdx v) 0).mem t u =
      if some (level3, leafIdx v) = (UserPage.mk t u).slot k.mem then 0 else userEntry k.mem t u := by
  have after := process.clear level3 (leafIdx v) (upperIdx v) here (by rfl)
  rw [after.entry_eq, process.entry_eq, clear_upper process here, UserPage.slot]
  rcases node nav k.mem t (upperIdx u) with _ | level
  · rfl
  · simp only [Option.map_some, Option.some.injEq, Prod.mk.injEq]
    by_cases same : level3 = level ∧ leafIdx v = leafIdx u
    · rw [if_pos same, ← same.1, ← same.2, Kernel.write_mem, put_same, isValid_zero]
      rfl
    · have away : level ≠ level3 ∨ leafIdx u ≠ leafIdx v := (not_and_or.mp same).imp Ne.symm Ne.symm
      rw [if_neg same, Kernel.write_mem, put_other _ _ _ _ _ _ away]

theorem slot_same (u v : Word) (mapped : userEntry k.mem t u ≠ 0) :
    (UserPage.mk t u).slot k.mem = (UserPage.mk t v).slot k.mem ↔ mmuGetTableIdx u = mmuGetTableIdx v := by
  have split (w : Word) : mmuGetTableIdx w = upperIdx w ++ [leafIdx w] := rfl
  constructor
  · intro same
    rw [process.entry_eq] at mapped
    rcases walk : node nav k.mem t (upperIdx u) with _ | level
    · rw [walk] at mapped
      exact absurd rfl mapped
    · rcases walk' : node nav k.mem t (upperIdx v) with _ | level' <;>
        simp only [UserPage.slot, walk, walk', Option.map_none, Option.map_some, Option.some.injEq, Prod.mk.injEq,
          reduceCtorEq] at same
      obtain ⟨rfl, leaf⟩ := same
      have upper := process.layout.typed.path_unique t t level _ _ process.root process.root (by simp [upperIdx])
        (by simp [upperIdx]) walk walk'
      rw [split, split, upper, leaf]
  · intro same
    rw [split, split] at same
    obtain ⟨upper, leaf⟩ := List.append_inj' same rfl
    rw [UserPage.slot, UserPage.slot, upper, List.singleton_inj.mp leaf]

end Unmap

section All

variable {k : Kernel} {pos : Pos} (wf : KernelWf k) (layout : UserLayout k pos)

include wf layout

/-- What the clearing of one entry does to the pages that are still to be unmapped. -/
theorem clear_unmapsAll {page : UserPage} {level3 : Word} (here : pos level3 = some (upperIdx page.vaddr))
    (walk : node nav k.mem page.table (upperIdx page.vaddr) = some level3) (pages : List UserPage)
    (roots : ∀ page', page' ∈ pages → pos page'.table = some []) :
    UnmapsAll (k.write level3 (leafIdx page.vaddr) 0).mem pages ↔
      (∀ page', page' ∈ pages → page.slot k.mem ≠ page'.slot k.mem) ∧ UnmapsAll k.mem pages := by
  have own : page.slot k.mem = some (level3, leafIdx page.vaddr) := by
    rw [UserPage.slot, walk]
    rfl
  have slot (page' : UserPage) (listed : page' ∈ pages) :
      page'.slot (k.write level3 (leafIdx page.vaddr) 0).mem = page'.slot k.mem := by
    rw [UserPage.slot, clear_upper ⟨wf, layout, roots page' listed⟩ here, UserPage.slot]
  have entry (page' : UserPage) (listed : page' ∈ pages) :
      page'.entry (k.write level3 (leafIdx page.vaddr) 0).mem =
        if page.slot k.mem = page'.slot k.mem then 0 else page'.entry k.mem := by
    rw [own]
    exact clear_entry ⟨wf, layout, roots page' listed⟩ here page'.vaddr
  have kept (apart : ∀ page', page' ∈ pages → page.slot k.mem ≠ page'.slot k.mem) :
      UnmapsAll (k.write level3 (leafIdx page.vaddr) 0).mem pages ↔ UnmapsAll k.mem pages := by
    have same (page' : UserPage) (listed : page' ∈ pages) :
        page'.entry (k.write level3 (leafIdx page.vaddr) 0).mem = page'.entry k.mem := by
      rw [entry page' listed, if_neg (apart page' listed)]
    constructor
    · rintro ⟨mapped, once⟩
      refine ⟨fun page' listed => same page' listed ▸ mapped page' listed, once.imp_of_mem ?_⟩
      intro a b inA inB alone equal
      rw [← same a inA]
      exact alone ((slot a inA).trans (equal.trans (slot b inB).symm))
    · rintro ⟨mapped, once⟩
      refine ⟨fun page' listed => (same page' listed).symm ▸ mapped page' listed, once.imp_of_mem ?_⟩
      intro a b inA inB alone equal
      rw [same a inA]
      exact alone ((slot a inA).symm.trans (equal.trans (slot b inB)))
  constructor
  · intro all
    have apart (page' : UserPage) (listed : page' ∈ pages) : page.slot k.mem ≠ page'.slot k.mem := fun equal =>
      all.mapped page' listed (by rw [entry page' listed, if_pos equal])
    exact ⟨apart, (kept apart).mp all⟩
  · rintro ⟨apart, all⟩
    exact (kept apart).mpr all

/-- The first page can be unmapped and then the others. -/
theorem unmapsAll_step (page : UserPage) (pages : List UserPage)
    (roots : ∀ page', page' ∈ page :: pages → pos page'.table = some []) : UnmapsAll k.mem (page :: pages) ↔
      ∃ addr k₁, memUserUnmapPage k page.table page.vaddr = (⟨addr, .ok⟩, k₁) ∧ UnmapsAll k₁.mem pages := by
  have process : Process k pos page.table := ⟨wf, layout, roots page List.mem_cons_self⟩
  have later (page' : UserPage) (listed : page' ∈ pages) := roots page' (List.mem_cons_of_mem _ listed)
  rw [unmapsAll_cons, UserPage.entry]
  rcases unmapPage_outcome process page.vaddr with
    ⟨missing, result⟩ | ⟨mapped, zero, addr, result⟩ | ⟨mapped, counted, level3, here, walk, result⟩ <;>
    rw [result]
  · refine iff_of_false (fun all => all.1 missing) ?_
    rintro ⟨addr, k₁, same, _⟩
    cases same
  · constructor
    · rintro ⟨_, _, rest⟩
      exact ⟨addr, k, rfl, rest⟩
    · rintro ⟨_, _, same, rest⟩
      obtain ⟨-, rfl⟩ := Prod.mk.inj same
      exact ⟨mapped, fun _ _ _ => zero, rest⟩
  · have after := clear_unmapsAll wf layout here walk pages later
    constructor
    · rintro ⟨_, once, rest⟩
      exact ⟨0, _, rfl, after.mpr ⟨fun page' listed same => counted (once page' listed same), rest⟩⟩
    · rintro ⟨_, _, same, rest⟩
      obtain ⟨-, rfl⟩ := Prod.mk.inj same
      obtain ⟨apart, all⟩ := after.mp rest
      exact ⟨mapped, fun page' listed equal => absurd equal (apart page' listed), all⟩

end All

/-- Some entries of level-3 tables of processes have been cleared, and nothing else has been done to memory. -/
structure Clears (pos : Pos) (k k' : Kernel) : Prop where
  root : k'.kernelTable = k.kernelTable
  rows : ∀ p, pos p = none → k'.mem p = k.mem p
  entries : ∀ t v, pos t = some [] → userEntry k'.mem t v ≠ 0 → userEntry k'.mem t v = userEntry k.mem t v

theorem Clears.refl (pos : Pos) (k : Kernel) : Clears pos k k := ⟨rfl, fun _ _ => rfl, fun _ _ _ _ => rfl⟩

theorem Clears.trans {pos : Pos} {k k₁ k₂ : Kernel} (first : Clears pos k k₁) (second : Clears pos k₁ k₂) :
    Clears pos k k₂ where
  root := second.root.trans first.root
  rows p other := (second.rows p other).trans (first.rows p other)
  entries t v root there := by
    have same := second.entries t v root there
    rw [same] at there ⊢
    exact first.entries t v root there

section Clear

variable {k : Kernel} {pos : Pos} {t : Word} (process : Process k pos t)

include process

theorem Process.kaddr_entry (v : Word) : memUserGetKaddr k.mem t v =
    if userEntry k.mem t v = 0 then 0 else mmuGetVaddr (userEntry k.mem t v) := by
  rw [memUserGetKaddr_eq k pos process.layout t process.root, process.walk_entry]
  split_ifs <;> rfl

theorem unmapPage_clears (v : Word) : Clears pos k (memUserUnmapPage k t v).2 := by
  rcases unmapPage_outcome process v with ⟨_, result⟩ | ⟨_, _, page, result⟩ | ⟨_, _, level3, here, walk, result⟩ <;>
    rw [result]
  · exact .refl pos k
  · exact .refl pos k
  · refine ⟨rfl, fun p none => ?_, fun t' u root there => ?_⟩
    · have other : p ≠ level3 := fun same => by
        rw [same, here] at none
        cases none
      rw [Kernel.write_mem, put_page_other _ _ _ _ _ other]
    · have after := clear_entry ⟨process.wf, process.layout, root⟩ here u
      rw [after] at there ⊢
      split_ifs at there ⊢
      · exact absurd rfl there
      · rfl

theorem unmapConn_clears (addr : Word) (count i : Nat) {k' : Kernel} (done : unmapConn t addr k i count = .ok k') :
    Clears pos k k' := by
  induction count generalizing k i with
  | zero => exact Except.ok.inj done ▸ .refl pos k
  | succ count ih =>
    have first := unmapPage_clears process (pageAt addr i)
    have stays := unmapPage_stays process (pageAt addr i)
    unfold unmapConn at done
    split at done
    next k₁ result =>
      rw [result] at first stays
      exact first.trans (ih stays (i + 1) done)
    · cases done

omit process in
-- A page that is still mapped is at the kernel address at which it was.
theorem Clears.kaddr {k' : Kernel} (clears : Clears pos k k') {page : UserPage} (before : Process k pos page.table)
    (after : Process k' pos page.table) (there : page.entry k'.mem ≠ 0) : page.kaddr k'.mem = page.kaddr k.mem := by
  have same : userEntry k'.mem page.table page.vaddr = userEntry k.mem page.table page.vaddr :=
    clears.entries page.table page.vaddr before.root there
  rw [UserPage.kaddr, UserPage.kaddr, after.kaddr_entry, before.kaddr_entry, same]

end Clear

-- The pages of a range from page `i` on.
def userPages (t addr : Word) (i count : Nat) : List UserPage := (List.range' i count).map fun p => ⟨t, pageAt addr p⟩

theorem mem_userPages (t addr : Word) (i count : Nat) (page : UserPage) :
    page ∈ userPages t addr i count ↔ ∃ p, i ≤ p ∧ p < i + count ∧ ⟨t, pageAt addr p⟩ = page := by
  simp only [userPages, List.mem_map, List.mem_range'_1, and_assoc]

/-- The loop of _conn_free gets through exactly when its pages can be unmapped, and what comes after it depends on the
entries that it has cleared. -/
theorem unmapConn_all {pos : Pos} (t addr : Word) (count i : Nat) {k : Kernel} (process : Process k pos t)
    (pages : List UserPage) (roots : ∀ page, page ∈ pages → pos page.table = some []) :
    UnmapsAll k.mem (userPages t addr i count ++ pages) ↔
      ∃ k', unmapConn t addr k i count = .ok k' ∧ UnmapsAll k'.mem pages := by
  induction count generalizing k i with
  | zero => exact ⟨fun all => ⟨k, rfl, all⟩, fun ⟨_, same, all⟩ => Except.ok.inj same ▸ all⟩
  | succ count ih =>
    have split : userPages t addr i (count + 1) ++ pages =
        ⟨t, pageAt addr i⟩ :: (userPages t addr (i + 1) count ++ pages) := by
      rw [userPages, List.range'_succ]
      rfl
    have all (page : UserPage) (listed : page ∈ userPages t addr i (count + 1) ++ pages) : pos page.table = some [] := by
      rcases List.mem_append.mp listed with own | other
      · obtain ⟨_, _, _, rfl⟩ := (mem_userPages _ _ _ _ _).mp own
        exact process.root
      · exact roots page other
    rw [split] at all ⊢
    rw [unmapsAll_step process.wf process.layout _ _ all, unmapConn]
    have stays := unmapPage_stays process (pageAt addr i)
    rcases result : memUserUnmapPage k t (pageAt addr i) with ⟨⟨page, err⟩, k₁⟩
    rw [result] at stays
    by_cases fine : err = .ok
    · subst fine
      constructor
      · rintro ⟨_, _, same, rest⟩
        obtain ⟨-, rfl⟩ := Prod.mk.inj same
        exact (ih (i + 1) stays).mp rest
      · exact fun done => ⟨page, k₁, rfl, (ih (i + 1) stays).mpr done⟩
    · refine iff_of_false ?_ ?_
      · rintro ⟨_, _, same, _⟩
        exact fine (MemRAddr.mk.inj (Prod.mk.inj same).1).2
      · rintro ⟨_, same, _⟩
        cases err <;> first | exact fine rfl | cases same

end Anthill
