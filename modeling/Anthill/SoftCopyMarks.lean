import Anthill.PageOwnership
import Anthill.Task
import Anthill.UnmapPage

set_option autoImplicit false

namespace Anthill

open Radix

-- The memory, and the entries that mmu_mark_copied was called on so far.
structure Marking where
  mem : Mem
  calls : List (Word × Idx)

def Marking.mark (s : Marking) (p : Word) (i : Idx) : Marking :=
  ⟨put s.mem p i (mmuMarkCopied (s.mem p i)), s.calls ++ [(p, i)]⟩

@[simp] theorem mark_mem (s : Marking) (p : Word) (i : Idx) :
    (s.mark p i).mem = put s.mem p i (mmuMarkCopied (s.mem p i)) := rfl

-- The loops of mem_table_soft_copy again, with their calls.
def marking3 (s : Marking) (level3 : Word) : Marking :=
  (List.finRange 512).foldl (fun s i3 =>
    if !mmuIsValid (s.mem level3 i3) then s else s.mark level3 i3) s

def marking2 (s : Marking) (level2 : Word) : Marking :=
  (List.finRange 512).foldl (fun s i2 =>
    if !mmuIsValid (s.mem level2 i2) then s
    else
      let s := s.mark level2 i2
      if mmuIsBlock (s.mem level2 i2) then s else marking3 s (mmuGetVaddr (s.mem level2 i2))) s

def marking1 (s : Marking) (level0 : Word) (i0 : Idx) (level1 : Word) : Marking :=
  (List.finRange 512).foldl (fun s i1 =>
    if !mmuIsValid (s.mem level0 i0) then s
    else
      let s := s.mark level1 i1
      if mmuIsBlock (s.mem level1 i1) then s else marking2 s (mmuGetVaddr (s.mem level1 i1))) s

def memTableSoftCopyMarking (m : Mem) (table : Word) : Marking :=
  (List.finRange 512).foldl (fun s i0 =>
    if !mmuIsValid (s.mem table i0) then s
    else marking1 s table i0 (mmuGetVaddr (s.mem table i0))) ⟨m, []⟩

theorem foldl_marking (rounds : List Idx) (round : Marking → Idx → Marking) (plain : Mem → Idx → Mem)
    (same : ∀ s i, (round s i).mem = plain s.mem i) (s : Marking) :
    (rounds.foldl round s).mem = rounds.foldl plain s.mem := by
  induction rounds generalizing s with
  | nil => rfl
  | cons i rounds ih => rw [List.foldl_cons, List.foldl_cons, ih, same]

theorem marking3_mem (s : Marking) (level3 : Word) : (marking3 s level3).mem = softCopy3 s.mem level3 := by
  refine foldl_marking _ _ _ (fun s i => ?_) s
  split_ifs <;> rfl

theorem marking2_mem (s : Marking) (level2 : Word) : (marking2 s level2).mem = softCopy2 s.mem level2 := by
  refine foldl_marking _ _ _ (fun s i => ?_) s
  simp only [apply_ite Marking.mem, marking3_mem]
  rfl

theorem marking1_mem (s : Marking) (level0 : Word) (i0 : Idx) (level1 : Word) :
    (marking1 s level0 i0 level1).mem = softCopy1 s.mem level0 i0 level1 := by
  refine foldl_marking _ _ _ (fun s i => ?_) s
  simp only [apply_ite Marking.mem, marking2_mem]
  rfl

theorem memTableSoftCopyMarking_mem (m : Mem) (table : Word) :
    (memTableSoftCopyMarking m table).mem = memTableSoftCopy m table := by
  unfold memTableSoftCopyMarking memTableSoftCopy
  refine foldl_marking _ _ _ (fun s i => ?_) _
  split_ifs
  · rfl
  · exact marking1_mem _ _ _ _

-- The calls that the loops make, as the entries stand before them.
def calls3 (m : Mem) (level3 : Word) : List (Word × Idx) :=
  (List.finRange 512).flatMap fun i => if mmuIsValid (m level3 i) then [(level3, i)] else []

def calls2 (m : Mem) (level2 : Word) : List (Word × Idx) :=
  (List.finRange 512).flatMap fun i =>
    if mmuIsValid (m level2 i) then
      (level2, i) :: if mmuIsBlock (m level2 i) then [] else calls3 m (mmuGetVaddr (m level2 i))
    else []

def calls1 (m : Mem) (level1 : Word) : List (Word × Idx) :=
  (List.finRange 512).flatMap fun i =>
    (level1, i) :: if mmuIsBlock (m level1 i) then [] else calls2 m (mmuGetVaddr (m level1 i))

def calls0 (m : Mem) (table : Word) : List (Word × Idx) :=
  (List.finRange 512).flatMap fun i => if mmuIsValid (m table i) then calls1 m (mmuGetVaddr (m table i)) else []

def Marking.marks (s : Marking) (calls : List (Word × Idx)) : Marking := calls.foldl (fun s e => s.mark e.1 e.2) s

theorem marks_append (s : Marking) (first second : List (Word × Idx)) :
    s.marks (first ++ second) = (s.marks first).marks second := List.foldl_append

theorem marks_cons (s : Marking) (e : Word × Idx) (calls : List (Word × Idx)) :
    s.marks (e :: calls) = (s.mark e.1 e.2).marks calls := rfl

theorem marks_nil (s : Marking) : s.marks [] = s := rfl

theorem mark_shape (s : Marking) (p : Word) (i : Idx) : Shape s.mem (s.mark p i).mem :=
  mmuMarkCopied_shape (Touched.one mmuMarkCopied s.mem p i)

theorem marks_shape (s : Marking) (calls : List (Word × Idx)) : Shape s.mem (s.marks calls).mem := by
  induction calls generalizing s with
  | nil => exact fun _ _ => rfl
  | cons e calls ih => exact (mark_shape s e.1 e.2).trans (ih _)

/-- A loop whose rounds make the calls of `entries` makes them one after another. -/
theorem foldl_marks (m : Mem) (rounds : List Idx) (round : Marking → Idx → Marking) (entries : Idx → List (Word × Idx))
    (each : ∀ s i, Shape m s.mem → round s i = s.marks (entries i)) (s : Marking) (shape : Shape m s.mem) :
    rounds.foldl round s = s.marks (rounds.flatMap entries) := by
  induction rounds generalizing s with
  | nil => rfl
  | cons i rounds ih =>
    rw [List.foldl_cons, List.flatMap_cons, marks_append, each s i shape]
    exact ih _ (shape.trans (marks_shape s _))

theorem marking3_calls (m : Mem) (level3 : Word) (s : Marking) (shape : Shape m s.mem) :
    marking3 s level3 = s.marks (calls3 m level3) := by
  refine foldl_marks m _ _ _ (fun s i shape => ?_) s shape
  rw [shape.valid]
  cases mmuIsValid (m level3 i) with
  | false => rfl
  | true => rw [if_pos rfl, marks_cons, marks_nil, Bool.not_true, if_neg Bool.false_ne_true]

theorem marking2_calls (m : Mem) (level2 : Word) (s : Marking) (shape : Shape m s.mem) :
    marking2 s level2 = s.marks (calls2 m level2) := by
  refine foldl_marks m _ _ _ (fun s i shape => ?_) s shape
  have after := shape.trans (mark_shape s level2 i)
  simp only [shape.valid, after.block, after.vaddr]
  cases mmuIsValid (m level2 i) with
  | false => rfl
  | true =>
    simp only [Bool.not_true, Bool.false_eq_true, if_false, if_true, marks_cons]
    cases mmuIsBlock (m level2 i) with
    | true => rfl
    | false =>
      rw [if_neg Bool.false_ne_true, if_neg Bool.false_ne_true]
      exact marking3_calls m _ _ after

theorem marking1_calls (m : Mem) (level0 : Word) (i0 : Idx) (valid0 : mmuIsValid (m level0 i0) = true) (level1 : Word)
    (s : Marking) (shape : Shape m s.mem) : marking1 s level0 i0 level1 = s.marks (calls1 m level1) := by
  refine foldl_marks m _ _ _ (fun s i shape => ?_) s shape
  have after := shape.trans (mark_shape s level1 i)
  simp only [shape.valid, valid0, after.block, after.vaddr, Bool.not_true, Bool.false_eq_true, if_false, marks_cons]
  cases mmuIsBlock (m level1 i) with
  | true => rfl
  | false =>
    rw [if_neg Bool.false_ne_true, if_neg Bool.false_ne_true]
    exact marking2_calls m _ _ after

/-- Which entries are marked depends on the tables before the call alone, whatever the tables are. -/
theorem memTableSoftCopyMarking_calls (m : Mem) (table : Word) :
    memTableSoftCopyMarking m table = Marking.marks ⟨m, []⟩ (calls0 m table) := by
  refine foldl_marks m _ _ _ (fun s i shape => ?_) _ fun _ _ => rfl
  rw [shape.valid, shape.vaddr]
  cases valid : mmuIsValid (m table i) with
  | false => rfl
  | true =>
    rw [Bool.not_true, if_neg Bool.false_ne_true, if_pos rfl]
    exact marking1_calls m table i valid _ s shape

theorem marks_calls (s : Marking) (calls : List (Word × Idx)) : (s.marks calls).calls = s.calls ++ calls := by
  induction calls generalizing s with
  | nil => exact (List.append_nil _).symm
  | cons e calls ih =>
    rw [marks_cons, ih, Marking.mark, List.append_assoc]
    rfl

theorem marks_touched (s : Marking) (calls : List (Word × Idx)) (distinct : calls.Nodup) :
    Touched mmuMarkCopied (fun p i => (p, i) ∈ calls) s.mem (s.marks calls).mem := by
  induction calls generalizing s with
  | nil => exact (Touched.nothing _ s.mem).congr fun p i => iff_false_intro List.not_mem_nil
  | cons e calls ih =>
    obtain ⟨p, i⟩ := e
    rw [List.nodup_cons] at distinct
    refine ((Touched.one mmuMarkCopied s.mem p i).trans (ih (s.mark p i) distinct.2) ?_).congr fun p' i' => ?_
    · rintro p' i' ⟨rfl, rfl⟩
      exact distinct.1
    · rw [List.mem_cons, Prod.mk.injEq]

/-- A valid entry of level `n` that a walk from the top-level table comes to. -/
inductive Reached (m : Mem) (t : Word) : Nat → Word → Idx → Prop
  | top (j i : Idx) : mmuIsValid (m t j) = true → mmuIsValid (m (mmuGetVaddr (m t j)) i) = true →
    Reached m t 1 (mmuGetVaddr (m t j)) i
  | down (n : Nat) (p : Word) (j i : Idx) : Reached m t n p j → n < 3 → mmuIsBlock (m p j) = false →
    mmuIsValid (m (mmuGetVaddr (m p j)) i) = true → Reached m t (n + 1) (mmuGetVaddr (m p j)) i

theorem Reached.valid {m : Mem} {t : Word} {n : Nat} {p : Word} {i : Idx} (reached : Reached m t n p i) :
    mmuIsValid (m p i) = true := by
  cases reached with
  | top j i _ valid => exact valid
  | down n p j i _ _ _ valid => exact valid

-- The bits of an entry that a copy changes.
def copyMask : Word := ((0xf : Word) <<< attRefOff) ||| ((3 : Word) <<< attApOff)

/-- What one more copy does to an entry. -/
structure CopiedOnce (entry entry' : Word) : Prop where
  ref : (refCount entry').toNat = min ((refCount entry).toNat + 1) 15
  ap : apBits entry' = if apBits entry = attApRwRw then attApNaRo else apBits entry
  rest : entry' &&& ~~~copyMask = entry &&& ~~~copyMask

theorem mmuMarkCopied_once (entry : Word) : CopiedOnce entry (mmuMarkCopied entry) := by
  refine ⟨refCount_mmuMarkCopied entry, mmuMarkCopied_ap entry, ?_⟩
  have shifted (ref : Word) (small : ref.toNat < 16) : ref <<< attRefOff &&& ~~~copyMask = 0 := by
    have each : ∀ r : Fin 16, (BitVec.ofNat 64 r.val) <<< attRefOff &&& ~~~copyMask = 0 := by decide
    have here := each ⟨ref.toNat, small⟩
    rwa [BitVec.ofNat_toNat, BitVec.setWidth_eq] at here
  have counted : (if refCount entry < attRefLimit then setRef entry (refCount entry + 1) else entry)
      &&& ~~~copyMask = entry &&& ~~~copyMask := by
    have bound := refCount_bound entry
    unfold attRefLimit
    split_ifs with room
    · exact and_clear_or _ _ _ _ (by decide) (shifted _ (by bv_omega))
    · rfl
  simp only [mmuMarkCopied]
  split_ifs at counted ⊢
  all_goals first
    | exact counted
    | exact (and_clear_or _ _ _ _ (by decide) (by decide)).trans counted

/-- The calls are distinct, and their entries lie in tables from the position `q` down. -/
def Listed (pos : Pos) (q : List Idx) (calls : List (Word × Idx)) : Prop :=
  calls.Nodup ∧ ∀ e, e ∈ calls → ∃ r, pos e.1 = some r ∧ q <+: r

theorem listed_nil (pos : Pos) (q : List Idx) : Listed pos q [] := ⟨List.nodup_nil, fun _ member => by cases member⟩

/-- The calls of a loop over a table: its entry's own and those below it in each round. -/
theorem listed_rounds {pos : Pos} {c : Word} {q : List Idx} (here : pos c = some q) (entries : Idx → List (Word × Idx))
    (each : ∀ j, ∃ below, Listed pos (q ++ [j]) below ∧ (entries j = below ∨ entries j = (c, j) :: below)) :
    Listed pos q ((List.finRange 512).flatMap entries) := by
  have within (j : Idx) (e : Word × Idx) (member : e ∈ entries j) :
      e = (c, j) ∨ ∃ r, pos e.1 = some r ∧ q ++ [j] <+: r := by
    obtain ⟨below, listed, same | same⟩ := each j
    · rw [same] at member
      exact .inr (listed.2 e member)
    · rw [same] at member
      rcases List.mem_cons.mp member with own | deeper
      · exact .inl own
      · exact .inr (listed.2 e deeper)
  have above (j : Idx) (r : List Idx) (at' : pos c = some r) : ¬ q ++ [j] <+: r := by
    intro longer
    rw [here] at at'
    obtain rfl := Option.some.inj at'
    simpa using longer.length_le
  refine ⟨List.nodup_flatMap.mpr ⟨fun j _ => ?_, (List.nodup_finRange 512).imp fun {j j'} different e first second => ?_⟩,
    fun e member => ?_⟩
  · obtain ⟨below, listed, same | same⟩ := each j
    · rw [same]
      exact listed.1
    · rw [same, List.nodup_cons]
      refine ⟨fun member => ?_, listed.1⟩
      obtain ⟨r, at', longer⟩ := listed.2 _ member
      exact above j r at' longer
  · rcases within j e first with rfl | ⟨r, at', longer⟩ <;> rcases within j' _ second with same | ⟨r', again, longer'⟩
    · exact different (Prod.mk.inj same).2
    · exact above j' r' again longer'
    · rw [same] at at'
      exact above j r at' longer
    · rw [at'] at again
      obtain rfl := Option.some.inj again
      have path := (List.prefix_of_prefix_length_le longer longer' (by simp)).eq_of_length (by simp)
      rw [List.append_cancel_left_eq, List.cons.injEq] at path
      exact different path.1
  · obtain ⟨j, -, inside⟩ := List.mem_flatMap.mp member
    rcases within j e inside with rfl | ⟨r, at', longer⟩
    · exact ⟨q, here, List.prefix_refl q⟩
    · exact ⟨r, at', (List.prefix_append q [j]).trans longer⟩

section Tree

variable {m : Mem} {pos : Pos} {t : Word} (tree : BlockTree m pos t)

include tree

omit tree in
theorem calls3_listed (c : Word) (q : List Idx) (here : pos c = some q) : Listed pos q (calls3 m c) := by
  refine listed_rounds here _ fun j => ⟨[], listed_nil pos _, ?_⟩
  cases mmuIsValid (m c j) with
  | false => exact .inl rfl
  | true => exact .inr rfl

theorem BlockTree.calls2_listed (c : Word) (q : List Idx) (here : pos c = some q) (deep : q.length = 2) :
    Listed pos q (calls2 m c) := by
  refine listed_rounds here _ fun j => ?_
  cases valid : mmuIsValid (m c j) with
  | false => exact ⟨[], listed_nil pos _, .inl rfl⟩
  | true =>
    cases block : mmuIsBlock (m c j) with
    | true => exact ⟨[], listed_nil pos _, .inr rfl⟩
    | false => exact ⟨_, calls3_listed (m := m) _ _ (tree.down c q j here (.inr deep) valid block), .inr (by simp)⟩

theorem BlockTree.calls1_listed (c : Word) (q : List Idx) (here : pos c = some q) (deep : q.length = 1)
    (full : ∀ i, mmuIsValid (m c i) = true) : Listed pos q (calls1 m c) := by
  refine listed_rounds here _ fun j => ?_
  cases block : mmuIsBlock (m c j) with
  | true => exact ⟨[], listed_nil pos _, .inr rfl⟩
  | false =>
    exact ⟨_, tree.calls2_listed _ _ (tree.down c q j here (.inl deep) (full j) block) (by simp [deep]), .inr (by simp)⟩

theorem BlockTree.calls0_listed
    (full : ∀ j, mmuIsValid (m t j) = true → ∀ i, mmuIsValid (m (mmuGetVaddr (m t j)) i) = true) :
    Listed pos [] (calls0 m t) := by
  refine listed_rounds tree.root _ fun j => ?_
  cases valid : mmuIsValid (m t j) with
  | false => exact ⟨[], listed_nil pos _, .inl rfl⟩
  | true => exact ⟨_, tree.calls1_listed _ _ (tree.top t j tree.root valid) rfl (full j valid), .inl (by simp)⟩

end Tree

section Calls

variable (m : Mem) (t : Word)

theorem mem_calls3 (c : Word) (e : Word × Idx) : e ∈ calls3 m c ↔ e.1 = c ∧ mmuIsValid (m c e.2) = true := by
  simp only [calls3, List.mem_flatMap, List.mem_finRange, true_and]
  constructor
  · rintro ⟨j, member⟩
    split_ifs at member with valid
    · rw [List.mem_singleton.mp member]
      exact ⟨rfl, valid⟩
    · cases member
  · rintro ⟨rfl, valid⟩
    exact ⟨e.2, by rw [if_pos valid]; exact List.mem_singleton_self _⟩

theorem mem_calls2 (c : Word) (e : Word × Idx) : e ∈ calls2 m c ↔
    ∃ j, mmuIsValid (m c j) = true ∧
      (e = (c, j) ∨ mmuIsBlock (m c j) = false ∧ e ∈ calls3 m (mmuGetVaddr (m c j))) := by
  simp only [calls2, List.mem_flatMap, List.mem_finRange, true_and]
  refine exists_congr fun j => ?_
  cases mmuIsValid (m c j) <;> cases mmuIsBlock (m c j) <;> simp

theorem mem_calls1 (c : Word) (e : Word × Idx) : e ∈ calls1 m c ↔
    ∃ j, e = (c, j) ∨ mmuIsBlock (m c j) = false ∧ e ∈ calls2 m (mmuGetVaddr (m c j)) := by
  simp only [calls1, List.mem_flatMap, List.mem_finRange, true_and]
  refine exists_congr fun j => ?_
  cases mmuIsBlock (m c j) <;> simp

theorem mem_calls0 (e : Word × Idx) : e ∈ calls0 m t ↔
    ∃ j, mmuIsValid (m t j) = true ∧ e ∈ calls1 m (mmuGetVaddr (m t j)) := by
  simp only [calls0, List.mem_flatMap, List.mem_finRange, true_and]
  refine exists_congr fun j => ?_
  cases mmuIsValid (m t j) <;> simp

-- The entries that are reached are called on, and with full level-1 tables no others are.
theorem Reached.called {n : Nat} {p : Word} {i : Idx} (reached : Reached m t n p i) : (p, i) ∈ calls0 m t := by
  rw [mem_calls0]
  cases reached with
  | top j i valid _ => exact ⟨j, valid, (mem_calls1 m _ _).mpr ⟨i, .inl rfl⟩⟩
  | down n p j i above less table valid =>
    cases above with
    | top j₀ _ valid₀ _ =>
      exact ⟨j₀, valid₀, (mem_calls1 m _ _).mpr ⟨j, .inr ⟨table, (mem_calls2 m _ _).mpr ⟨i, valid, .inl rfl⟩⟩⟩⟩
    | down n p j₁ _ above' less' table' valid' =>
      cases above' with
      | top j₀ _ valid₀ _ =>
        refine ⟨j₀, valid₀, (mem_calls1 m _ _).mpr ⟨j₁, .inr ⟨table', (mem_calls2 m _ _).mpr ⟨j, valid', .inr ⟨table, ?_⟩⟩⟩⟩⟩
        exact (mem_calls3 m _ _).mpr ⟨rfl, valid⟩
      | down n p _ _ deeper _ _ _ =>
        obtain rfl : n = 0 := by omega
        cases deeper

theorem reached_of_called (full : ∀ j, mmuIsValid (m t j) = true → ∀ i, mmuIsValid (m (mmuGetVaddr (m t j)) i) = true)
    (e : Word × Idx) (member : e ∈ calls0 m t) : ∃ n, Reached m t n e.1 e.2 := by
  obtain ⟨j₀, valid₀, inside₁⟩ := (mem_calls0 m t e).mp member
  obtain ⟨j₁, same | ⟨table₁, inside₂⟩⟩ := (mem_calls1 m _ e).mp inside₁
  · rw [same]
    exact ⟨1, .top j₀ j₁ valid₀ (full j₀ valid₀ j₁)⟩
  have level1 : Reached m t 1 _ j₁ := .top j₀ j₁ valid₀ (full j₀ valid₀ j₁)
  obtain ⟨j₂, valid₂, same | ⟨table₂, inside₃⟩⟩ := (mem_calls2 m _ e).mp inside₂
  · rw [same]
    exact ⟨2, .down 1 _ j₁ j₂ level1 (by decide) table₁ valid₂⟩
  obtain ⟨same, valid₃⟩ := (mem_calls3 m _ e).mp inside₃
  rw [same]
  exact ⟨3, .down 2 _ j₂ e.2 (.down 1 _ j₁ j₂ level1 (by decide) table₁ valid₂) (by decide) table₂ valid₃⟩

end Calls

/-- mem_table_soft_copy touches the valid entries below the top level, each once, and no other entry. -/
structure CopiesValid (m : Mem) (t : Word) : Prop where
  once : ∀ n p i, Reached m t n p i → (memTableSoftCopyMarking m t).calls.count (p, i) = 1
  only : ∀ p i, (p, i) ∈ (memTableSoftCopyMarking m t).calls → ∃ n, Reached m t n p i
  copied : ∀ n p i, Reached m t n p i → CopiedOnce (m p i) (memTableSoftCopy m t p i)
  kept : ∀ p i, (¬ ∃ n, Reached m t n p i) → memTableSoftCopy m t p i = m p i
  invalid : ∀ p i, mmuIsValid (m p i) = false → memTableSoftCopy m t p i = m p i
  top : ∀ i, memTableSoftCopy m t t i = m t i

theorem memTableSoftCopy_valid (m : Mem) (pos : Pos) (t : Word) (tree : BlockTree m pos t) :
    CopiesValid m t ↔ ∀ j, mmuIsValid (m t j) = true → ∀ i, mmuIsValid (m (mmuGetVaddr (m t j)) i) = true := by
  have calls : (memTableSoftCopyMarking m t).calls = calls0 m t := by
    rw [memTableSoftCopyMarking_calls, marks_calls, List.nil_append]
  constructor
  · intro copies j valid i
    have called : (mmuGetVaddr (m t j), i) ∈ (memTableSoftCopyMarking m t).calls := by
      rw [calls, mem_calls0]
      exact ⟨j, valid, (mem_calls1 m _ _).mpr ⟨i, .inl rfl⟩⟩
    obtain ⟨n, reached⟩ := copies.only _ _ called
    exact reached.valid
  · intro full
    have listed := tree.calls0_listed full
    have touched := marks_touched ⟨m, []⟩ (calls0 m t) listed.1
    rw [← memTableSoftCopyMarking_calls, memTableSoftCopyMarking_mem] at touched
    have kept (p : Word) (i : Idx) (away : ¬ ∃ n, Reached m t n p i) : memTableSoftCopy m t p i = m p i :=
      touched.outside p i fun member => away (reached_of_called m t full (p, i) member)
    refine ⟨fun n p i reached => ?_, fun p i member => ?_, fun n p i reached => ?_, kept,
      fun p i invalid => kept p i ?_, fun i => touched.outside t i fun member => ?_⟩
    · rw [calls]
      exact List.count_eq_one_of_mem listed.1 reached.called
    · rw [calls] at member
      exact reached_of_called m t full (p, i) member
    · rw [touched.inside p i reached.called]
      exact mmuMarkCopied_once (m p i)
    · rintro ⟨n, reached⟩
      rw [reached.valid] at invalid
      cases invalid
    · obtain ⟨j, valid, inside⟩ := (mem_calls0 m t _).mp member
      obtain ⟨r, at', longer⟩ :=
        (tree.calls1_listed _ _ (tree.top t j tree.root valid) rfl (full j valid)).2 _ inside
      rw [tree.root] at at'
      obtain rfl := Option.some.inj at'
      simpa using longer.length_le

theorem onePage_copies : CopiesValid (machine (onePage 0) []).mem (poolVa 4) ↔
    ∀ j, mmuIsValid ((machine (onePage 0) []).mem (poolVa 4) j) = true →
      ∀ i, mmuIsValid ((machine (onePage 0) []).mem (mmuGetVaddr ((machine (onePage 0) []).mem (poolVa 4) j)) i) = true :=
  memTableSoftCopy_valid _ _ _ ((machine_layout (onePage 0) [] onePageTables (by decide +kernel)).blockTree
    (by decide +kernel))

-- A process with one page: the unused entries of its level-1 table become counts.
theorem soft_copy_marks_unused : ¬ ∀ (m : Mem) (pos : Pos) (t : Word), BlockTree m pos t →
    ∀ p i, mmuIsValid (m p i) = false → memTableSoftCopy m t p i = m p i := by
  intro claim
  have fits : Fits (onePage 0) [] onePageTables := by decide +kernel
  have root : posOf onePageTables (poolVa 4) = some [] := by decide +kernel
  have tree := (machine_layout (onePage 0) [] onePageTables fits).blockTree root
  have kept := claim _ _ _ tree (poolVa 5) 7 (by decide +kernel)
  have shaped := (machine_taskLayout (onePage 0) [] onePageTables fits (by decide +kernel)).shaped
  have touched := memTableSoftCopy_touched _ _ shaped (poolVa 4) root
  have level1 : node nav (machine (onePage 0) []).mem (poolVa 4) [0] = some (poolVa 5) := by decide +kernel
  rw [touched.inside (poolVa 5) 7 ⟨[0], by decide, by decide, level1, .inl rfl⟩] at kept
  have counted : mmuMarkCopied ((machine (onePage 0) []).mem (poolVa 5) 7) ≠ (machine (onePage 0) []).mem (poolVa 5) 7 := by
    decide +kernel
  exact counted kept

end Anthill
