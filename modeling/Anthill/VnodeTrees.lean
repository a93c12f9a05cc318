import Anthill.VnodeRemove
import Mathlib.Data.List.Pairwise

set_option autoImplicit false

namespace Anthill

namespace VnodeHeap

variable (root : Nat)

-- Two pointers, each with a size, to memory that is not the same.
def Distinct (x y : Nat × Nat) : Prop := x.1 ≠ y.1 ∧ (x.1 + x.2 ≤ y.1 ∨ y.1 + y.2 ≤ x.1)

instance (x y : Nat × Nat) : Decidable (Distinct x y) := by
  unfold Distinct
  infer_instance

instance : Std.Symm Distinct := ⟨fun _ _ away => ⟨away.1.symm, away.2.symm⟩⟩

/-- The memory in use is not at the null pointer, and what is for one pointer is not for another one, or for the root. -/
structure Sane (live : List (Nat × Nat)) : Prop where
  some_ : ∀ x, x ∈ live → x.1 ≠ 0
  apart : live.Pairwise Distinct
  static : ∀ x, x ∈ live → root + vnodeSize ≤ x.1 ∨ x.1 + x.2 ≤ root

/-- So is the memory that the heap of the process has handed out, if the root is not in one of its chunks. -/
theorem sane_of_sound {linked : Prop} {other : Nat → Bool} {h : Arena} {blocks : Set Nat} {live : List (Nat × Nat)}
    (sound : h.Sound linked other blocks live)
    (static : ∀ c, c ∈ h.chunks → root + vnodeSize ≤ c ∨ c + 2 ^ mallocMaxOrder ≤ root) : Sane root live where
  some_ x member := by
    obtain ⟨b, -, is, -⟩ := sound.pointers x member
    rw [is, blockSize]
    exact Nat.succ_ne_zero _
  apart := by
    refine (List.pairwise_map.mp sound.once).imp_of_mem fun {x y} hx hy other => ⟨other, ?_⟩
    obtain ⟨b, hb, is, -, fits⟩ := sound.pointers x hx
    obtain ⟨b', hb', is', -, fits'⟩ := sound.pointers y hy
    have ne : b ≠ b' := fun same => other (by rw [is, is', same])
    rcases sound.tiled.disjoint hb hb' ne with before | after
    · omega
    · omega
  static x member := by
    obtain ⟨b, hb, is, -, fits⟩ := sound.pointers x member
    have low := Buddy.floor_le mallocMaxOrder b
    have high := sound.tiled.extent hb
    rcases static _ (sound.tiled.inside b hb) with before | after
    · omega
    · omega

/-- malloc returns memory that is not in use, and leaves what is. -/
structure Malloc (s : VnodeHeap) (size r : Nat) (s' : VnodeHeap) : Prop where
  live : s'.live = (r, size) :: s.live
  sane : Sane root s.live → Sane root s'.live
  kept : ∀ q, s.InUse root q → s'.node q = s.node q

/-- So does realloc, but for the memory that it moves with what is in it. -/
structure Realloc (s : VnodeHeap) (ptr size r : Nat) (s' : VnodeHeap) : Prop where
  live : s'.live = (r, size) :: s.live.filter fun x => x.1 ≠ ptr
  sane : Sane root s.live → Sane root s'.live
  kept : ∀ q, ({ s with live := s.live.filter fun x => x.1 ≠ ptr } : VnodeHeap).InUse root q → s'.node q = s.node q
  moved : ∀ i, (i + 1) * vnodeSize ≤ size → s'.node (r + i * vnodeSize) = s.node (ptr + i * vnodeSize)

/-- The array that vnode_add_child goes on with. -/
inductive Space (s : VnodeHeap) (vnode : Children) (n : BitVec 16) : Nat → VnodeHeap → Prop where
  | enough (room : vnode.moreSpace n = none) : Space s vnode n vnode.children s
  | malloc (size : BitVec 64) (r : Nat) (s' : VnodeHeap) (call : vnode.moreSpace n = some (.malloc size))
      (new : s.Malloc root size.toNat r s') : Space s vnode n r s'
  | realloc (ptr : Nat) (size : BitVec 64) (r : Nat) (s' : VnodeHeap)
      (call : vnode.moreSpace n = some (.realloc ptr size)) (new : s.Realloc root ptr size.toNat r s') : Space s vnode n r s'

def put (s : VnodeHeap) (node : Nat) (f : VnodeFields) : VnodeHeap := { s with node := Function.update s.node node f }

/-- vnode_add_child returns a child of `p`, and its caller gives it a name and no children. -/
def Adds (s : VnodeHeap) (p : Nat) (s' : VnodeHeap) : Prop :=
  ∃ fuel n array s₁ c kids size name s₂, childRoom fuel (s.node p).childrenNo 1 = some n ∧
    s.Space root (s.node p).toChildren n array s₁ ∧
    (⟨array, (s₁.node p).childrenNo⟩ : Children).added = (some c, kids) ∧
    (s₁.put p ⟨kids, (s₁.node p).name⟩).Malloc root size name s₂ ∧ s' = s₂.put c ⟨⟨0, 0⟩, name⟩

/-- The rest of the process uses memory of its own, and leaves the vnodes, their names and their arrays. -/
structure Leaves (s s' : VnodeHeap) : Prop where
  sane : Sane root s.live → Sane root s'.live
  nodes : ∀ q, s.Subtree root q → s'.node q = s.node q
  live : ∀ x, x ∈ s.live → (∃ q, s.Subtree root q ∧ (x.1 = (s.node q).name ∨ x.1 = (s.node q).children)) → x ∈ s'.live

end VnodeHeap

inductive TreeCall where
  | add (p : Nat)
  | rest

namespace TreeCall

open VnodeHeap

variable (root : Nat)

def Step (s : VnodeHeap) (call : TreeCall) (s' : VnodeHeap) : Prop :=
  match call with
  | .add p => s.Subtree root p ∧ s.Adds root p s'
  | .rest => s.Leaves root s'

-- The array has room for a child.
def Fits (s : VnodeHeap) : TreeCall → Prop
  | .add p => (s.node p).childrenNo.toNat < 4
  | .rest => True

end TreeCall

namespace VnodeHeap

variable (root : Nat)

/-- The root before it has any children. It is a static variable, and has no name. -/
structure Bare (s : VnodeHeap) : Prop where
  some_ : root ≠ 0
  sane : Sane root s.live
  fields : s.node root = ⟨⟨0, 0⟩, 0⟩

/-- The names and the arrays of a subtree are freed once, no pointer that is not from malloc is, no memory is read that
is freed or null, and the siblings can be used as before. -/
def Removes (s : VnodeHeap) (v : Nat) : Prop :=
  ∃ fuel s' ptrs, vnodeRemove root fuel v s = some s' ∧ s'.freed = s.freed ++ ptrs ∧
    (∀ q, s.Subtree v q → ((s.node q).name ≠ 0 → ptrs.count (s.node q).name = 1) ∧
      ((s.node q).children ≠ 0 → ptrs.count (s.node q).children = 1)) ∧
    ∀ p u, s.Subtree root p → s.Child p v → s.Child p u → u ≠ v → s'.InUse root u ∧ s'.node u = s.node u

/-- What lies between the calls. Vnodes are told apart by the order in which they have been added. -/
structure Built (s : VnodeHeap) : Prop where
  static : root ≠ 0
  sane : Sane root s.live
  arrays : ∀ q, s.Subtree root q → (s.node q).children = 0 ∧ (s.node q).childrenNo = 0 ∨
    ((s.node q).children, 4 * vnodeSize) ∈ s.live ∧ (s.node q).childrenNo ≠ 0 ∧ (s.node q).childrenNo.toNat ≤ 4
  names : ∀ q, s.Subtree root q → (s.node q).name ≠ 0 → (s.node q).name ∈ s.live.map Prod.fst
  nameOnce : ∀ a b, s.Subtree root a → s.Subtree root b → (s.node a).name ≠ 0 → (s.node a).name = (s.node b).name → a = b
  arrayOnce : ∀ a b, s.Subtree root a → s.Subtree root b → (s.node a).children ≠ 0 →
    (s.node a).children = (s.node b).children → a = b
  mixed : ∀ a b, s.Subtree root a → s.Subtree root b → (s.node a).name ≠ 0 → (s.node a).name ≠ (s.node b).children
  order : ∃ (rank : Nat → Nat) (most : Nat), ∀ q, s.Subtree root q → rank q < most ∧ ∀ c, s.Child q c → rank q < rank c

section Trees

variable {root : Nat} {s s' : VnodeHeap}

theorem Sane.distinct {live : List (Nat × Nat)} (sane : Sane root live) {x y : Nat × Nat} (hx : x ∈ live) (hy : y ∈ live)
    (other : x ≠ y) : Distinct x y := sane.apart.forall hx hy other

theorem Sane.once {live : List (Nat × Nat)} (sane : Sane root live) {x y : Nat × Nat} (hx : x ∈ live) (hy : y ∈ live)
    (same : x.1 = y.1) : x = y := by
  by_contra other
  exact (sane.distinct hx hy other).1 same

-- An element of an array of four vnodes.
def Slot (array i q : Nat) : Prop := i < 4 ∧ q = array + i * vnodeSize

theorem Sane.slot {live : List (Nat × Nat)} (sane : Sane root live) {a b i j q : Nat} (ha : (a, 4 * vnodeSize) ∈ live)
    (hb : (b, 4 * vnodeSize) ∈ live) (first : Slot a i q) (second : Slot b j q) : a = b ∧ i = j := by
  obtain ⟨low, is⟩ := first
  obtain ⟨low', is'⟩ := second
  by_cases same : a = b
  · rw [same, vnodeSize] at is
    rw [vnodeSize] at is'
    exact ⟨same, by omega⟩
  · obtain ⟨-, away⟩ := sane.distinct ha hb fun both => same (congrArg Prod.fst both)
    simp only [vnodeSize] at is is' away
    omega

theorem Sane.slot_root {live : List (Nat × Nat)} (sane : Sane root live) {a i : Nat} (ha : (a, 4 * vnodeSize) ∈ live) :
    ¬Slot a i root := by
  rintro ⟨low, is⟩
  have away := sane.static _ ha
  simp only [vnodeSize] at is away
  omega

-- A slot is no pointer that malloc has returned, but for the first one.
theorem Sane.slot_pointer {live : List (Nat × Nat)} (sane : Sane root live) {a i q : Nat} (ha : (a, 4 * vnodeSize) ∈ live)
    (slot : Slot a i q) (pointer : q ∈ live.map Prod.fst) : i = 0 := by
  obtain ⟨low, is⟩ := slot
  obtain ⟨x, member, rfl⟩ := List.mem_map.mp pointer
  by_cases same : x = (a, 4 * vnodeSize)
  · rw [same, vnodeSize] at is
    omega
  · obtain ⟨other, away⟩ := sane.distinct member ha same
    simp only [vnodeSize] at is away other
    omega

/-- Memory in use that a slot is in is that of its array. -/
theorem Sane.slot_inUse {live : List (Nat × Nat)} (sane : Sane root live) {a i q : Nat} (ha : (a, 4 * vnodeSize) ∈ live)
    (slot : Slot a i q) {x : Nat × Nat} (member : x ∈ live) (low : x.1 ≤ q) (high : q + vnodeSize ≤ x.1 + x.2) : x.1 = a := by
  obtain ⟨few, is⟩ := slot
  by_contra other
  obtain ⟨-, away⟩ := sane.distinct member ha fun both => other (congrArg Prod.fst both)
  simp only [vnodeSize] at is away high
  omega

/-- A vnode is the root or an element of the array of another one. -/
theorem Built.cases (built : s.Built root) {q : Nat} (tree : s.Subtree root q) :
    q = root ∨ ∃ p i, s.Subtree root p ∧ s.Child p q ∧ ((s.node p).children, 4 * vnodeSize) ∈ s.live ∧
      i < (s.node p).childrenNo.toNat ∧ Slot (s.node p).children i q := by
  rcases Relation.ReflTransGen.cases_tail tree with same | ⟨p, above, child⟩
  · exact .inl same
  · obtain ⟨array, i, low, is⟩ := id child
    rcases built.arrays p above with ⟨none_, -⟩ | ⟨live, -, few⟩
    · exact absurd none_ array
    · exact .inr ⟨p, i, above, child, live, low, by omega, is⟩

theorem Built.some_ (built : s.Built root) {q : Nat} (tree : s.Subtree root q) : q ≠ 0 := by
  rcases built.cases tree with rfl | ⟨p, i, -, -, live, -, -, rfl⟩
  · exact built.static
  · exact Nat.ne_of_gt (Nat.lt_add_right _ (Nat.pos_of_ne_zero (built.sane.some_ _ live)))

theorem Built.inUse (built : s.Built root) {q : Nat} (tree : s.Subtree root q) : s.InUse root q := by
  rcases built.cases tree with same | ⟨p, i, -, -, live, -, few, is⟩
  · exact .inl same
  · simp only [vnodeSize] at is
    refine .inr ⟨_, live, ?_, ?_⟩
    · dsimp only
      omega
    · dsimp only [vnodeSize]
      omega

theorem Built.array_live (built : s.Built root) {q : Nat} (below : s.Subtree root q) (some_ : (s.node q).children ≠ 0) :
    (s.node q).children ∈ s.live.map Prod.fst := by
  rcases built.arrays q below with ⟨none_, -⟩ | ⟨live, -⟩
  · exact absurd none_ some_
  · exact List.mem_map_of_mem live

/-- What a child is added by: an array that has room for it, the one from before if there is one, and a name. -/
structure Added (root : Nat) (s : VnodeHeap) (p c array name : Nat) (s' : VnodeHeap) : Prop where
  child : c = array + (s.node p).childrenNo.toNat * vnodeSize
  room : (array, 4 * vnodeSize) ∈ s'.live
  before : (s.node p).childrenNo ≠ 0 → array = (s.node p).children
  fresh : (s.node p).childrenNo = 0 → array ∉ s.live.map Prod.fst
  named : name ≠ 0 ∧ name ∈ s'.live.map Prod.fst ∧ name ∉ s.live.map Prod.fst ∧ name ≠ array
  parent : s'.node p = ⟨⟨array, (s.node p).childrenNo + 1⟩, (s.node p).name⟩
  self : s'.node c = ⟨⟨0, 0⟩, name⟩
  others : ∀ q, s.Subtree root q → q ≠ p → s'.node q = s.node q
  live : ∀ x, x ∈ s.live → x ∈ s'.live
  sane : Sane root s'.live

-- Of the four elements of the array, the one behind the children is of no vnode.
theorem Built.behind (built : s.Built root) {p q array : Nat} {live : List (Nat × Nat)} (sane : Sane root live)
    (more : ∀ x, x ∈ s.live → x ∈ live) (member : (array, 4 * vnodeSize) ∈ live) (tree : s.Subtree root p)
    (few : (s.node p).childrenNo.toNat < 4) (before : (s.node p).childrenNo ≠ 0 → array = (s.node p).children)
    (fresh : (s.node p).childrenNo = 0 → array ∉ s.live.map Prod.fst) (other : s.Subtree root q) :
    q ≠ array + (s.node p).childrenNo.toNat * vnodeSize := by
  intro is
  rcases built.cases other with same | ⟨p', i, above, child, array', low, slot⟩
  · exact sane.slot_root member ⟨few, same.symm.trans is⟩
  · obtain ⟨same, at'⟩ := sane.slot (more _ array') member slot ⟨few, is⟩
    by_cases none_ : (s.node p).childrenNo = 0
    · exact fresh none_ (same ▸ List.mem_map_of_mem array')
    · obtain rfl := built.arrayOnce p' p above tree child.1 (same.trans (before none_))
      omega

theorem count_succ {childrenNo : BitVec 32} (few : childrenNo.toNat < 4) :
    (childrenNo + 1).toNat = childrenNo.toNat + 1 := by
  rw [BitVec.toNat_add]
  exact Nat.mod_eq_of_lt (by change _ + 1 < _; omega)

theorem moreSpace_few {vnode : Children} {n : BitVec 16} (few : vnode.childrenNo.toNat < 4) :
    vnode.moreSpace n = if vnode.childrenNo = 0 then some (.malloc (BitVec.ofNat 64 (4 * vnodeSize))) else none := by
  have next := count_succ few
  rw [Children.moreSpace, if_neg (show ¬(4 < n.toNat ∧ n.toNat < (vnode.childrenNo + 1).toNat) by omega)]

/-- The array, and the heap with it, where there are fewer than four children. -/
theorem Space.few {n : BitVec 16} {p array : Nat} {s₁ : VnodeHeap} (space : s.Space root (s.node p).toChildren n array s₁)
    (few : (s.node p).childrenNo.toNat < 4) :
    (s.node p).childrenNo = 0 ∧ s.Malloc root (4 * vnodeSize) array s₁ ∨
      (s.node p).childrenNo ≠ 0 ∧ array = (s.node p).children ∧ s₁ = s := by
  have call := moreSpace_few (n := n) few
  by_cases none_ : (s.node p).childrenNo = 0
  · rw [if_pos none_] at call
    cases space with
    | enough room => cases room.symm.trans call
    | malloc size r s' is new =>
      obtain rfl := HeapCall.malloc.inj (Option.some.inj (is.symm.trans call))
      exact .inl ⟨none_, new⟩
    | realloc ptr size r s' is new => cases Option.some.inj (is.symm.trans call)
  · rw [if_neg none_] at call
    cases space with
    | enough room => exact .inr ⟨none_, rfl, rfl⟩
    | malloc size r s' is new => cases is.symm.trans call
    | realloc ptr size r s' is new => cases is.symm.trans call

theorem Malloc.new {size r : Nat} (malloc : s.Malloc root size r s') (sane : Sane root s.live) :
    r ≠ 0 ∧ r ∉ s.live.map Prod.fst ∧ ∀ x, x ∈ s.live → x ∈ s'.live := by
  have after := malloc.sane sane
  rw [malloc.live] at after ⊢
  refine ⟨after.some_ _ List.mem_cons_self, fun old => ?_, fun x member => List.mem_cons_of_mem _ member⟩
  obtain ⟨x, member, same⟩ := List.mem_map.mp old
  exact ((List.pairwise_cons.mp after.apart).1 x member).1 same.symm

-- The heap when vnode_add_child has its array.
structure Ready (root : Nat) (s : VnodeHeap) (p array : Nat) (s₁ : VnodeHeap) : Prop where
  room : (array, 4 * vnodeSize) ∈ s₁.live
  before : (s.node p).childrenNo ≠ 0 → array = (s.node p).children
  fresh : (s.node p).childrenNo = 0 → array ∉ s.live.map Prod.fst
  kept : ∀ q, s.Subtree root q → s₁.node q = s.node q
  live : ∀ x, x ∈ s.live → x ∈ s₁.live
  sane : Sane root s₁.live

theorem Built.ready (built : s.Built root) {n : BitVec 16} {p array : Nat} {s₁ : VnodeHeap} (tree : s.Subtree root p)
    (few : (s.node p).childrenNo.toNat < 4) (space : s.Space root (s.node p).toChildren n array s₁) :
    Ready root s p array s₁ := by
  rcases space.few few with ⟨none_, malloc⟩ | ⟨some_, rfl, rfl⟩
  · obtain ⟨-, fresh, live⟩ := malloc.new built.sane
    have room : (array, 4 * vnodeSize) ∈ s₁.live := malloc.live ▸ List.mem_cons_self
    have kept (q : Nat) (below : s.Subtree root q) : s₁.node q = s.node q := malloc.kept q (built.inUse below)
    exact ⟨room, absurd none_, fun _ => fresh, kept, live, malloc.sane built.sane⟩
  · have room : ((s₁.node p).children, 4 * vnodeSize) ∈ s₁.live :=
      (built.arrays p tree).elim (fun leaf => absurd leaf.2 some_) fun array => array.1
    exact ⟨room, fun _ => rfl, fun none_ => absurd none_ some_, fun _ _ => rfl, fun _ member => member, built.sane⟩

theorem Built.adds (built : s.Built root) {p : Nat} (tree : s.Subtree root p) (few : (s.node p).childrenNo.toNat < 4)
    (adds : s.Adds root p s') : ∃ c array name, Added root s p c array name s' := by
  obtain ⟨fuel, n, array, s₁, c, kids, size, name, s₂, -, space, added, malloc, rfl⟩ := adds
  have ready := built.ready tree few space
  rw [ready.kept p tree, Children.added] at added
  obtain ⟨child, rfl⟩ := Prod.mk.inj added
  rw [BitVec.add_sub_cancel] at child
  obtain rfl := Option.some.inj child
  rw [ready.kept p tree] at malloc
  obtain ⟨some_, new, live⟩ := malloc.new ready.sane
  have named : name ∈ s₂.live.map Prod.fst := malloc.live ▸ List.mem_cons_self
  have behind (q : Nat) (below : s.Subtree root q) : q ≠ array + (s.node p).childrenNo.toNat * vnodeSize :=
    built.behind ready.sane ready.live ready.room tree few ready.before ready.fresh below
  have same (q : Nat) (below : s.Subtree root q) : s₂.node q =
      (s₁.put p ⟨⟨array, (s.node p).childrenNo + 1⟩, (s.node p).name⟩).node q := by
    refine malloc.kept q ?_
    rcases built.inUse below with top | ⟨x, member, place⟩
    · exact .inl top
    · exact .inr ⟨x, ready.live x member, place⟩
  have unused : name ∉ s.live.map Prod.fst := fun old => by
    obtain ⟨x, member, is⟩ := List.mem_map.mp old
    exact new (is ▸ List.mem_map_of_mem (ready.live x member))
  refine ⟨_, array, name, rfl, live _ ready.room, ready.before, ready.fresh, ⟨some_, named, unused, ?_⟩, ?_, ?_,
    fun q below other => ?_, fun x member => live x (ready.live x member), malloc.sane ready.sane⟩
  · rintro rfl
    exact new (List.mem_map_of_mem ready.room)
  · exact (Function.update_of_ne (behind p tree) ..).trans ((same p tree).trans (Function.update_self ..))
  · exact Function.update_self ..
  · refine (Function.update_of_ne (behind q below) ..).trans ((same q below).trans ?_)
    exact (Function.update_of_ne other ..).trans (ready.kept q below)

section Grows

variable {p c array name : Nat} (built : s.Built root) (added : Added root s p c array name s')
  (few : (s.node p).childrenNo.toNat < 4)

include added

theorem Added.name_old {q : Nat} (below : s.Subtree root q) : (s'.node q).name = (s.node q).name := by
  by_cases parent : q = p
  · rw [parent, added.parent]
  · rw [added.others q below parent]

/-- An array is that from before, or the first one of the parent. -/
theorem Added.array_old {q : Nat} (below : s.Subtree root q) : (s'.node q).children = (s.node q).children ∨
    (s'.node q).children = array ∧ array ∉ s.live.map Prod.fst ∧ q = p := by
  by_cases parent : q = p
  · rw [parent, added.parent]
    by_cases none_ : (s.node p).childrenNo = 0
    · exact .inr ⟨rfl, added.fresh none_, rfl⟩
    · exact .inl (added.before none_)
  · rw [added.others q below parent]
    exact .inl rfl

include few

theorem Added.child_cases {a q : Nat} (above : s.Subtree root a) (child : s'.Child a q) : s.Child a q ∨ q = c := by
  obtain ⟨some_, i, low, rfl⟩ := child
  by_cases parent : a = p
  · subst parent
    rw [added.parent] at some_ low ⊢
    rw [count_succ few] at low
    rcases Nat.lt_succ_iff_lt_or_eq.mp low with earlier | rfl
    · have is := added.before fun none_ => by
        rw [none_] at earlier
        exact absurd earlier (Nat.not_lt_zero i)
      exact .inl ⟨is ▸ some_, i, earlier, congrArg (· + _) is⟩
    · exact .inr added.child.symm
  · rw [added.others a above parent] at some_ low ⊢
    exact .inl ⟨some_, i, low, rfl⟩

/-- The tree has one vnode more. -/
theorem Added.subtree {q : Nat} (below : s'.Subtree root q) : s.Subtree root q ∨ q = c := by
  induction below with
  | refl => exact .inl .refl
  | tail _ child ih =>
    rcases ih with above | rfl
    · exact (added.child_cases few above child).imp_left above.tail
    · obtain ⟨some_, -⟩ := child
      rw [added.self] at some_
      exact absurd rfl some_

include built

theorem Added.arrays {q : Nat} (below : s'.Subtree root q) : (s'.node q).children = 0 ∧ (s'.node q).childrenNo = 0 ∨
    ((s'.node q).children, 4 * vnodeSize) ∈ s'.live ∧ (s'.node q).childrenNo ≠ 0 ∧ (s'.node q).childrenNo.toNat ≤ 4 := by
  rcases added.subtree few below with old | rfl
  · by_cases parent : q = p
    · rw [parent, added.parent]
      have count := count_succ few
      refine .inr ⟨added.room, fun none_ => ?_, ?_⟩
      · have zero := congrArg BitVec.toNat none_
        exact absurd (count.symm.trans zero) (Nat.succ_ne_zero _)
      · dsimp only
        omega
    · rw [added.others q old parent]
      exact (built.arrays q old).imp_right (And.imp_left (added.live _))
  · rw [added.self]
    exact .inl ⟨rfl, rfl⟩

theorem Added.nameOnce {a b : Nat} (first : s'.Subtree root a) (second : s'.Subtree root b) (some_ : (s'.node a).name ≠ 0)
    (same : (s'.node a).name = (s'.node b).name) : a = b := by
  have unused {q : Nat} (old : s.Subtree root q) (is : (s.node q).name = name) : False :=
    added.named.2.2.1 (is ▸ built.names q old (is ▸ added.named.1))
  rcases added.subtree few first with old | rfl
  · rcases added.subtree few second with old' | rfl
    · rw [added.name_old old] at some_ same
      rw [added.name_old old'] at same
      exact built.nameOnce a b old old' some_ same
    · rw [added.name_old old, added.self] at same
      exact (unused old same).elim
  · rcases added.subtree few second with old' | rfl
    · rw [added.name_old old', added.self] at same
      exact (unused old' same.symm).elim
    · rfl

theorem Added.arrayOnce {a b : Nat} (first : s'.Subtree root a) (second : s'.Subtree root b)
    (some_ : (s'.node a).children ≠ 0) (same : (s'.node a).children = (s'.node b).children) : a = b := by
  rcases added.subtree few first with old | rfl
  · rcases added.subtree few second with old' | rfl
    · rcases added.array_old old with is | ⟨is, fresh, rfl⟩ <;> rcases added.array_old old' with is' | ⟨is', fresh', rfl⟩
      · exact built.arrayOnce a b old old' (is ▸ some_) (is.symm.trans (same.trans is'))
      · exact absurd (is.symm.trans (same.trans is') ▸ built.array_live old (is ▸ some_)) fresh'
      · exact absurd (is'.symm.trans (same.symm.trans is) ▸ built.array_live old' (is' ▸ same ▸ some_)) fresh
      · rfl
    · rw [added.self] at same
      exact absurd same some_
  · rw [added.self] at some_
    exact absurd rfl some_

theorem Added.mixed {a b : Nat} (first : s'.Subtree root a) (second : s'.Subtree root b) (some_ : (s'.node a).name ≠ 0) :
    (s'.node a).name ≠ (s'.node b).children := by
  obtain ⟨someName, -, unused, other⟩ := added.named
  intro same
  rcases added.subtree few second with old' | rfl
  · rcases added.subtree few first with old | rfl
    · rw [added.name_old old] at some_ same
      rcases added.array_old old' with is | ⟨is, fresh, -⟩
      · exact built.mixed a b old old' some_ (same.trans is)
      · exact fresh (same.trans is ▸ built.names a old some_)
    · rw [added.self] at same
      have reused : name = (s'.node b).children := same
      rcases added.array_old old' with is | ⟨is, -⟩
      · rw [reused, is] at unused someName
        exact unused (built.array_live old' someName)
      · exact other (reused.trans is)
  · rw [added.self] at same
    exact some_ same

end Grows

theorem Built.added (built : s.Built root) {p c array name : Nat} (tree : s.Subtree root p)
    (few : (s.node p).childrenNo.toNat < 4) (added : Added root s p c array name s') : s'.Built root := by
  obtain ⟨rank, most, order⟩ := built.order
  have new (q : Nat) (old : s.Subtree root q) : q ≠ c := added.child ▸
    built.behind added.sane added.live added.room tree few added.before added.fresh old
  refine ⟨built.static, added.sane, fun q => added.arrays built few, fun q below some_ => ?_,
    fun a b => added.nameOnce built few, fun a b => added.arrayOnce built few, fun a b => added.mixed built few,
    Function.update rank c most, most + 1, fun q below => ?_⟩
  · rcases added.subtree few below with old | rfl
    · rw [added.name_old old] at some_ ⊢
      obtain ⟨x, member, is⟩ := List.mem_map.mp (built.names q old some_)
      exact is ▸ List.mem_map_of_mem (added.live x member)
    · rw [added.self]
      exact added.named.2.1
  · rcases added.subtree few below with old | rfl
    · rw [Function.update_of_ne (new q old)]
      obtain ⟨low, later⟩ := order q old
      refine ⟨Nat.lt_succ_of_lt low, fun k child => ?_⟩
      rcases added.child_cases few old child with before | rfl
      · rw [Function.update_of_ne (new k (old.tail before))]
        exact later k before
      · rwa [Function.update_self]
    · rw [Function.update_self]
      refine ⟨Nat.lt_succ_self most, fun k child => ?_⟩
      obtain ⟨some_, -⟩ := child
      rw [added.self] at some_
      exact absurd rfl some_

theorem Leaves.subtree (leaves : s.Leaves root s') {q : Nat} (below : s'.Subtree root q) : s.Subtree root q := by
  induction below with
  | refl => exact .refl
  | tail _ child ih =>
    refine ih.tail ?_
    rwa [Child, leaves.nodes _ ih] at child

theorem Built.leaves (built : s.Built root) (leaves : s.Leaves root s') : s'.Built root := by
  obtain ⟨rank, most, order⟩ := built.order
  have same (q : Nat) (below : s'.Subtree root q) : s.Subtree root q ∧ s'.node q = s.node q :=
    ⟨leaves.subtree below, leaves.nodes q (leaves.subtree below)⟩
  refine ⟨built.static, leaves.sane built.sane, fun q below => ?_, fun q below => ?_, fun a b first second => ?_,
    fun a b first second => ?_, fun a b first second => ?_, rank, most, fun q below => ?_⟩
  · obtain ⟨old, is⟩ := same q below
    rw [is]
    exact (built.arrays q old).imp_right (And.imp_left fun live => leaves.live _ live ⟨q, old, .inr rfl⟩)
  · obtain ⟨old, is⟩ := same q below
    rw [is]
    intro some_
    obtain ⟨x, member, name⟩ := List.mem_map.mp (built.names q old some_)
    exact name ▸ List.mem_map_of_mem (leaves.live x member ⟨q, old, .inl name⟩)
  · rw [(same a first).2, (same b second).2]
    exact built.nameOnce a b (same a first).1 (same b second).1
  · rw [(same a first).2, (same b second).2]
    exact built.arrayOnce a b (same a first).1 (same b second).1
  · rw [(same a first).2, (same b second).2]
    exact built.mixed a b (same a first).1 (same b second).1
  · obtain ⟨old, is⟩ := same q below
    refine ⟨(order q old).1, fun c child => (order q old).2 c ?_⟩
    rwa [Child, is] at child

theorem Built.step (built : s.Built root) (call : TreeCall) (fits : call.Fits s) (step : call.Step root s s') :
    s'.Built root := by
  cases call with
  | add p =>
    obtain ⟨tree, adds⟩ := step
    obtain ⟨c, array, name, added⟩ := built.adds tree fits adds
    exact built.added tree fits added
  | rest => exact built.leaves step

theorem Bare.built (bare : s.Bare root) : s.Built root := by
  have chain : s.Chain root [] := by rw [Chain, bare.fields]
  have fields (q : Nat) (below : s.Subtree root q) : s.node q = ⟨⟨0, 0⟩, 0⟩ := by
    obtain rfl := List.mem_singleton.mp (chain.subtree below)
    exact bare.fields
  refine ⟨bare.some_, bare.sane, fun q below => ?_, fun q below some_ => ?_, fun a b first _ some_ => ?_,
    fun a b first _ some_ => ?_, fun a b first _ some_ => ?_, fun _ => 0, 1, fun q below => ?_⟩
  · rw [fields q below]
    exact .inl ⟨rfl, rfl⟩
  · rw [fields q below] at some_
    exact absurd rfl some_
  · rw [fields a first] at some_
    exact absurd rfl some_
  · rw [fields a first] at some_
    exact absurd rfl some_
  · rw [fields a first] at some_
    exact absurd rfl some_
  · refine ⟨Nat.one_pos, fun c child => ?_⟩
    rw [Child, fields q below] at child
    exact absurd rfl child.1

-- The first elements of the arrays, which are what malloc has returned.
def First (root : Nat) (s : VnodeHeap) (q : Nat) : Prop :=
  ∃ p, s.Subtree root p ∧ (s.node p).children ≠ 0 ∧ q = (s.node p).children

theorem Built.first_live (built : s.Built root) {q : Nat} (first : First root s q) : (q, 4 * vnodeSize) ∈ s.live := by
  obtain ⟨p, tree, some_, rfl⟩ := first
  exact ((built.arrays p tree).resolve_left fun leaf => some_ leaf.1).1

theorem Built.first_root (built : s.Built root) {q : Nat} (first : First root s q) : q ≠ root := by
  rintro rfl
  exact built.sane.slot_root (built.first_live first) (i := 0) ⟨by decide, by rw [Nat.zero_mul, Nat.add_zero]⟩

-- The only child is the first element of the array.
theorem Child.only {p u : Nat} (child : s.Child p u) (one : (s.node p).childrenNo = 1) : u = (s.node p).children := by
  obtain ⟨-, i, low, rfl⟩ := child
  rw [one] at low
  obtain rfl : i = 0 := Nat.lt_one_iff.mp low
  rw [Nat.zero_mul, Nat.add_zero]

theorem Built.first_child (built : s.Built root) {q : Nat} (tree : s.Subtree root q) (array : (s.node q).children ≠ 0) :
    s.Child q (s.node q).children := by
  obtain ⟨-, count, -⟩ := (built.arrays q tree).resolve_left fun leaf => array leaf.1
  exact ⟨array, 0, Nat.pos_of_ne_zero fun zero => count (BitVec.eq_of_toNat_eq zero), by rw [Nat.zero_mul, Nat.add_zero]⟩

/-- Where no vnode has two children, the vnodes of a subtree are those of a chain. -/
theorem Built.chain (built : s.Built root) {v : Nat} (tree : s.Subtree root v)
    (one : ∀ q, s.Subtree v q → (s.node q).childrenNo.toNat ≤ 1) :
    ∃ cs, s.Chain v cs ∧ (v :: cs).Nodup ∧ ∀ c, c ∈ cs → s.Subtree v c ∧ First root s c := by
  obtain ⟨rank, most, order⟩ := built.order
  have chains (n : Nat) : ∀ v, s.Subtree root v → (∀ q, s.Subtree v q → (s.node q).childrenNo.toNat ≤ 1) →
      most - rank v ≤ n → ∃ cs, s.Chain v cs ∧ (v :: cs).Nodup ∧
        ∀ c, c ∈ cs → s.Subtree v c ∧ First root s c ∧ rank v < rank c := by
    induction n with
    | zero =>
      intro v tree _ none_
      have := (order v tree).1
      omega
    | succ n ih =>
      intro v tree one near
      rcases built.arrays v tree with ⟨leaf, -⟩ | ⟨live, count, -⟩
      · exact ⟨[], leaf, List.nodup_singleton v, fun c member => absurd member List.not_mem_nil⟩
      · have array : (s.node v).children ≠ 0 := built.sane.some_ _ live
        have some_ : 0 < (s.node v).childrenNo.toNat := Nat.pos_of_ne_zero fun zero => count (BitVec.eq_of_toNat_eq zero)
        have single : (s.node v).childrenNo = 1 := BitVec.eq_of_toNat_eq (Nat.le_antisymm (one v .refl) some_)
        have child := built.first_child tree array
        have later := (order v tree).2 _ child
        have last := (order v tree).1
        obtain ⟨cs, chain, distinct, all⟩ := ih _ (tree.tail child) (fun q below => one q (below.head child)) (by omega)
        refine ⟨_ :: cs, ⟨rfl, array, single, chain⟩, List.nodup_cons.mpr ⟨fun member => ?_, distinct⟩, fun c member => ?_⟩
        · rcases List.mem_cons.mp member with same | member
          · exact absurd (congrArg rank same) (Nat.ne_of_lt later)
          · exact absurd ((all v member).2.2.trans later) (Nat.lt_irrefl _)
        · rcases List.mem_cons.mp member with rfl | member
          · exact ⟨.single child, ⟨v, tree, array, rfl⟩, later⟩
          · obtain ⟨below, first, low⟩ := all c member
            exact ⟨below.head child, first, later.trans low⟩
  obtain ⟨cs, chain, distinct, all⟩ := chains _ v tree one (Nat.le_refl _)
  exact ⟨cs, chain, distinct, fun c member => ⟨(all c member).1, (all c member).2.1⟩⟩

section Lists

variable {v : Nat} {cs : List Nat} (built : s.Built root)
  (place : ∀ a, a ∈ v :: cs → s.Subtree root a ∧ (a ≠ root → First root s a))

include built place

/-- What the vnodes of a chain own is different. -/
theorem Built.frees_once (distinct : (v :: cs).Nodup) : (s.chainFrees root v cs).Nodup := by
  -- No name is the pointer to an array.
  have mixed (a b : Nat) (first : a ∈ v :: cs) (second : b ∈ v :: cs) (named : (s.node a).name ≠ 0) (other : b ≠ root) :
      (s.node a).name ≠ b := by
    obtain ⟨p, above, -, rfl⟩ := (place b second).2 other
    exact built.mixed a p (place a first).1 above named
  refine nodup_chainFrees root distinct (fun a member => nodup_owned root (mixed a a member member)) ?_
  intro a b first second apart p mine yours
  rcases (mem_owned root).mp mine with ⟨named, rfl⟩ | ⟨other, rfl⟩ <;>
    rcases (mem_owned root).mp yours with ⟨named', is⟩ | ⟨other', is⟩
  · exact apart (built.nameOnce a b (place a first).1 (place b second).1 named is)
  · exact mixed a b first second named other' is
  · exact mixed b p second first named' other is.symm
  · exact apart is

theorem Built.frees_live {p : Nat} (member : p ∈ s.chainFrees root v cs) : p ∈ s.live.map Prod.fst := by
  obtain ⟨a, at', owns⟩ := (mem_chainFrees root).mp member
  rcases (mem_owned root).mp owns with ⟨named, rfl⟩ | ⟨other, rfl⟩
  · exact built.names a (place a at').1 named
  · exact List.mem_map_of_mem (built.first_live ((place p at').2 other))

theorem Built.heads {a : Nat} (member : a ∈ v :: cs) : s.Heads root a := by
  by_cases top : a = root
  · exact .inl top
  · exact .inr ⟨_, by decide, built.first_live ((place a member).2 top)⟩

end Lists

theorem Built.removes (built : s.Built root) {v : Nat} (tree : s.Subtree root v)
    (lone : ∀ p, s.Subtree root p → s.Child p v → (s.node p).childrenNo = 1)
    (one : ∀ q, s.Subtree v q → (s.node q).childrenNo.toNat ≤ 1) : s.Removes root v := by
  obtain ⟨cs, chain, distinct, all⟩ := built.chain tree one
  have place (a : Nat) (member : a ∈ v :: cs) : s.Subtree root a ∧ (a ≠ root → First root s a) := by
    rcases List.mem_cons.mp member with rfl | member
    · refine ⟨tree, fun other => ?_⟩
      obtain ⟨p, i, above, child, -⟩ := (built.cases tree).resolve_left other
      exact ⟨p, above, child.1, child.only (lone p above child)⟩
    · exact ⟨tree.trans (all a member).1, fun _ => (all a member).2⟩
  have once := built.frees_once place distinct
  obtain ⟨s', removed, frees, -⟩ := vnodeRemove_chain root chain (built.some_ tree) (fun a => built.heads place) distinct once
    fun p => built.frees_live place
  have counted {q p : Nat} (below : s.Subtree v q) (owns : p ∈ s.owned root q) : (s.chainFrees root v cs).count p = 1 :=
    List.count_eq_one_of_mem once ((mem_chainFrees root).mpr ⟨q, chain.subtree below, owns⟩)
  refine ⟨_, s', _, removed, frees.freed, fun q below => ⟨fun named => ?_, fun array => ?_⟩,
    fun p u above mine child other => ?_⟩
  · exact counted below ((mem_owned root).mpr (.inl ⟨named, rfl⟩))
  · have above := tree.trans below
    have other := built.first_root ⟨q, above, array, rfl⟩
    exact counted (below.tail (built.first_child above array)) ((mem_owned root).mpr (.inr ⟨other, rfl⟩))
  · have single := lone p above mine
    exact absurd ((child.only single).trans (mine.only single).symm) other

/-- A vnode with a sibling is no pointer that malloc has returned, or the sibling is in the memory that is freed with it. -/
theorem Built.lone (built : s.Built root) {p v : Nat} (above : s.Subtree root p) (child : s.Child p v)
    (removes : s.Removes root v) : (s.node p).childrenNo = 1 := by
  obtain ⟨fuel, s', ptrs, removed, -, -, siblings⟩ := removes
  obtain ⟨array, i, low, rfl⟩ := id child
  obtain ⟨live, -, few⟩ := (built.arrays p above).resolve_left fun leaf => array leaf.1
  have slot : Slot (s.node p).children i ((s.node p).children + i * vnodeSize) := ⟨by omega, rfl⟩
  have other : (s.node p).children + i * vnodeSize ≠ root := fun same => built.sane.slot_root live (same ▸ slot)
  obtain ⟨pointer, gone⟩ := vnodeRemove_frees (Nat.ne_of_gt (Nat.lt_add_right _ (Nat.pos_of_ne_zero array))) other removed
  obtain rfl := built.sane.slot_pointer live slot pointer
  rw [Nat.zero_mul, Nat.add_zero] at child gone siblings
  by_contra several
  have two : 1 < (s.node p).childrenNo.toNat :=
    Nat.lt_of_le_of_ne low fun one => several (BitVec.eq_of_toNat_eq one.symm)
  have second : Slot (s.node p).children 1 ((s.node p).children + 1 * vnodeSize) := ⟨by decide, rfl⟩
  obtain ⟨use, -⟩ := siblings p _ above child ⟨array, 1, two, rfl⟩ (Nat.ne_of_gt (Nat.lt_add_of_pos_right (by decide)))
  rcases use with same | ⟨x, member, least, most⟩
  · exact built.sane.slot_root live (same ▸ second)
  · have old := (vnodeRemove_shrinks fuel _ s s' removed).live x member
    exact gone (built.sane.slot_inUse live second old least most ▸ List.mem_map_of_mem member)

end Trees

theorem vnodeRemove_iff (root : Nat) (s₀ s : VnodeHeap) (bare : s₀.Bare root)
    (run : Run (TreeCall.Step root) TreeCall.Fits s₀ s) (v : Nat) (tree : s.Subtree root v) :
    s.Removes root v ↔ (∀ p, s.Subtree root p → s.Child p v → (s.node p).childrenNo = 1) ∧
      ∀ q, s.Subtree v q → (s.node q).childrenNo.toNat ≤ 1 := by
  have built : s.Built root := run.invariant (Built root) bare.built fun s call s' built fits step =>
    built.step call fits step
  constructor
  · intro removes
    refine ⟨fun p above child => built.lone above child removes, fun q below => ?_⟩
    obtain ⟨fuel, s', -, removed, -⟩ := removes
    rcases built.arrays q (tree.trans below) with ⟨-, none_⟩ | ⟨live, -⟩
    · rw [none_]
      exact Nat.zero_le 1
    · exact Returns.subtree ⟨fuel, s', removed⟩ (built.some_ tree) below (built.sane.some_ _ live)
  · rintro ⟨lone, one⟩
    exact built.removes tree lone one

-- What an addition comes to, when the array is there.
def named (s : VnodeHeap) (p array name : Nat) : VnodeHeap :=
  { s.put p ⟨⟨array, (s.node p).childrenNo + 1⟩, (s.node p).name⟩ with live := (name, 8) :: s.live }

def withChild (s : VnodeHeap) (p array name : Nat) : VnodeHeap :=
  (s.named p array name).put (array + (s.node p).childrenNo.toNat * vnodeSize) ⟨⟨0, 0⟩, name⟩

theorem withChild_adds {root : Nat} {s s₁ : VnodeHeap} {p array name : Nat} (n : BitVec 16)
    (room : childRoom 2 (s.node p).childrenNo 1 = some n) (space : s.Space root (s.node p).toChildren n array s₁)
    (sane : Sane root ((name, 8) :: s₁.live)) : s.Adds root p (s₁.withChild p array name) := by
  refine ⟨2, n, array, s₁, _, _, 8, name, s₁.named p array name, room, space, rfl, ⟨rfl, fun _ => sane, fun _ _ => rfl⟩, ?_⟩
  rw [withChild, BitVec.add_sub_cancel]

-- _root_vnode is at 4096, and the heap begins at 8192.
def bareRoot : VnodeHeap := ⟨fun _ => ⟨⟨0, 0⟩, 0⟩, [], []⟩

def firstArray : VnodeHeap := { bareRoot with live := [(8192, 4 * vnodeSize)] }

def oneChild : VnodeHeap := firstArray.withChild 4096 8192 8448

def twoChildren : VnodeHeap := oneChild.withChild 4096 8192 8464

theorem bareRoot_bare : bareRoot.Bare 4096 := ⟨by decide, ⟨by decide, .nil, by decide⟩, rfl⟩

theorem oneChild_run : Run (TreeCall.Step 4096) TreeCall.Fits bareRoot oneChild := by
  have array : bareRoot.Malloc 4096 (BitVec.ofNat 64 (4 * vnodeSize)).toNat 8192 firstArray :=
    ⟨rfl, fun _ => ⟨by decide, by decide, by decide⟩, fun _ _ => rfl⟩
  refine .next _ _ (.add 4096) .start (by decide : 0 < 4) ⟨.refl, ?_⟩
  exact withChild_adds 1 (by decide) (.malloc _ 8192 _ rfl array) ⟨by decide, by decide, by decide⟩

theorem twoChildren_run : Run (TreeCall.Step 4096) TreeCall.Fits bareRoot twoChildren := by
  refine .next _ _ (.add 4096) oneChild_run (by decide : 1 < 4) ⟨.refl, ?_⟩
  exact withChild_adds 1 (by decide) (.enough rfl) ⟨by decide, by decide, by decide⟩

theorem oneChild_chain : oneChild.Chain 4096 [8192] := ⟨rfl, by decide, rfl, rfl⟩

/-- A root with one child. -/
theorem oneChild_removes : oneChild.Removes 4096 4096 := by
  refine (vnodeRemove_iff 4096 bareRoot oneChild bareRoot_bare oneChild_run 4096 .refl).mpr
    ⟨fun p above child => ?_, fun q below => ?_⟩
  · rcases List.mem_cons.mp (oneChild_chain.subtree above) with rfl | member
    · rfl
    · obtain rfl := List.mem_singleton.mp member
      exact absurd rfl child.1
  · rcases List.mem_cons.mp (oneChild_chain.subtree below) with rfl | member
    · exact Nat.le_refl 1
    · obtain rfl := List.mem_singleton.mp member
      exact Nat.zero_le 1

/-- A root with two children: the second is looked for in the array of the first, behind a null pointer. -/
theorem twoChildren_null : ¬ ∀ (root : Nat) (s₀ s : VnodeHeap) (v : Nat), s₀.Bare root →
    Run (TreeCall.Step root) TreeCall.Fits s₀ s → s.Subtree root v → s.Removes root v := by
  intro claim
  obtain ⟨fuel, s', -, removed, -⟩ := claim 4096 bareRoot twoChildren 4096 bareRoot_bare twoChildren_run .refl
  have one := Returns.subtree ⟨fuel, s', removed⟩ (by decide) .refl (by decide)
  exact absurd one (by decide)

end VnodeHeap

end Anthill
