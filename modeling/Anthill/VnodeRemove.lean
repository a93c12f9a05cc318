import Anthill.VnodeGrowth
import Mathlib.Logic.Relation

set_option autoImplicit false

namespace Anthill

/-- The fields of a vnode that own memory. -/
structure VnodeFields extends Children where
  name : Nat

/-- The vnodes in memory, what malloc has returned, with the sizes asked for, and the pointers that have been freed. -/
structure VnodeHeap where
  node : Nat → VnodeFields
  live : List (Nat × Nat)
  freed : List Nat

namespace VnodeHeap

variable (root : Nat)

-- A vnode can be read and written to if it is _root_vnode, or in memory that has not been freed.
def InUse (s : VnodeHeap) (node : Nat) : Prop :=
  node = root ∨ ∃ x, x ∈ s.live ∧ x.1 ≤ node ∧ node + vnodeSize ≤ x.1 + x.2

instance (s : VnodeHeap) (node : Nat) : Decidable (s.InUse root node) := by
  unfold InUse
  infer_instance

def read (s : VnodeHeap) (node : Nat) : Option VnodeFields := if s.InUse root node then some (s.node node) else none

def store (s : VnodeHeap) (node : Nat) (f : VnodeFields → VnodeFields) : Option VnodeHeap :=
  if s.InUse root node then some { s with node := Function.update s.node node (f (s.node node)) } else none

-- free has no result for a pointer that malloc has not returned.
def free (s : VnodeHeap) (ptr : Nat) : Option VnodeHeap :=
  if ptr = 0 then some s
  else if ptr ∈ s.live.map Prod.fst then
    some { s with live := s.live.filter fun x => x.1 ≠ ptr, freed := s.freed ++ [ptr] }
  else none

-- free(node->children); node->children = NULL;
def freeChildren (s : VnodeHeap) (node : Nat) : Option VnodeHeap :=
  (s.read root node).bind fun vnode =>
    (s.free vnode.children).bind fun s => s.store root node fun x => { x with children := 0 }

-- if (node->name) { free(node->name); node->name = NULL; }
def freeName (s : VnodeHeap) (node : Nat) : Option VnodeHeap :=
  (s.read root node).bind fun vnode =>
    if vnode.name = 0 then some s
    else (s.free vnode.name).bind fun s => s.store root node fun x => { x with name := 0 }

-- if (node != &_root_vnode) free(node);
def freeNode (s : VnodeHeap) (node : Nat) : Option VnodeHeap := if node = root then some s else s.free node

/-- The loop of vnode_remove. Behind the first, an element of a null array is no null pointer: it would be read. -/
def removeChildren (remove : Nat → VnodeHeap → Option VnodeHeap) (node : Nat) :
    Nat → BitVec 32 → VnodeHeap → Option VnodeHeap
  | 0, _, _ => none
  | fuel + 1, i, s =>
    (s.read root node).bind fun vnode =>
      if i.toNat < vnode.childrenNo.toNat then
        if vnode.children = 0 ∧ i ≠ 0 then none
        else
          (remove (vnode.children + i.toNat * vnodeSize) s).bind fun s =>
            (s.store root node fun x => { x with children := 0 }).bind fun s => removeChildren remove node fuel (i + 1) s
      else some s

/-- There is no result where memory is read that is not in use, or a pointer is freed that malloc has not returned. -/
def vnodeRemove : Nat → Nat → VnodeHeap → Option VnodeHeap
  | 0, _, _ => none
  | fuel + 1, node, s =>
    if node = 0 then some s
    else
      (s.read root node).bind fun vnode =>
        (if vnode.children = 0 then some s
          else (removeChildren root (vnodeRemove fuel) node fuel 0 s).bind fun s => s.freeChildren root node).bind fun s =>
        (s.freeName root node).bind fun s => s.freeNode root node

def Returns (s : VnodeHeap) (node : Nat) : Prop := ∃ fuel s', vnodeRemove root fuel node s = some s'

/-- What a removal leaves: no memory comes into use, and the numbers of children are not written to. -/
structure Shrinks (s s' : VnodeHeap) : Prop where
  live : ∀ x, x ∈ s'.live → x ∈ s.live
  count : ∀ q, (s'.node q).childrenNo = (s.node q).childrenNo

theorem Shrinks.refl (s : VnodeHeap) : s.Shrinks s := ⟨fun _ member => member, fun _ => rfl⟩

theorem Shrinks.trans {s s' s'' : VnodeHeap} (first : s.Shrinks s') (second : s'.Shrinks s'') : s.Shrinks s'' :=
  ⟨fun x member => first.live x (second.live x member), fun q => (second.count q).trans (first.count q)⟩

section Steps

variable {root : Nat} {s s' : VnodeHeap} {node : Nat}

theorem read_some {f : VnodeFields} (is : s.read root node = some f) : s.InUse root node ∧ f = s.node node := by
  rw [read] at is
  split_ifs at is with use
  exact ⟨use, (Option.some.inj is).symm⟩

theorem store_some {f : VnodeFields → VnodeFields} (is : s.store root node f = some s') :
    s.InUse root node ∧ s' = { s with node := Function.update s.node node (f (s.node node)) } := by
  rw [store] at is
  split_ifs at is with use
  exact ⟨use, (Option.some.inj is).symm⟩

theorem store_shrinks {f : VnodeFields → VnodeFields} (is : s.store root node f = some s')
    (counts : ∀ x, (f x).childrenNo = x.childrenNo) : s.Shrinks s' := by
  obtain ⟨-, rfl⟩ := store_some is
  refine ⟨fun _ member => member, fun q => ?_⟩
  dsimp only
  by_cases same : q = node
  · rw [same, Function.update_self, counts]
  · rw [Function.update_of_ne same]

theorem free_shrinks {ptr : Nat} (is : s.free ptr = some s') : s.Shrinks s' := by
  rw [free] at is
  split_ifs at is
  · obtain rfl := Option.some.inj is
    exact .refl s
  · obtain rfl := Option.some.inj is
    exact ⟨fun x member => List.mem_of_mem_filter member, fun _ => rfl⟩

theorem freeChildren_shrinks (is : s.freeChildren root node = some s') : s.Shrinks s' := by
  obtain ⟨vnode, -, is⟩ := Option.bind_eq_some_iff.mp is
  obtain ⟨s₁, freed, stored⟩ := Option.bind_eq_some_iff.mp is
  exact (free_shrinks freed).trans (store_shrinks stored fun _ => rfl)

theorem freeName_shrinks (is : s.freeName root node = some s') : s.Shrinks s' := by
  obtain ⟨vnode, -, is⟩ := Option.bind_eq_some_iff.mp is
  split_ifs at is
  · obtain rfl := Option.some.inj is
    exact .refl s
  · obtain ⟨s₁, freed, stored⟩ := Option.bind_eq_some_iff.mp is
    exact (free_shrinks freed).trans (store_shrinks stored fun _ => rfl)

theorem freeNode_shrinks (is : s.freeNode root node = some s') : s.Shrinks s' := by
  rw [freeNode] at is
  split_ifs at is
  · obtain rfl := Option.some.inj is
    exact .refl s
  · exact free_shrinks is

theorem removeChildren_shrinks {remove : Nat → VnodeHeap → Option VnodeHeap}
    (removes : ∀ q s s', remove q s = some s' → s.Shrinks s') (fuel : Nat) (i : BitVec 32)
    (is : removeChildren root remove node fuel i s = some s') : s.Shrinks s' := by
  induction fuel generalizing i s with
  | zero => cases is
  | succ fuel ih =>
    obtain ⟨vnode, -, is⟩ := Option.bind_eq_some_iff.mp is
    split_ifs at is
    · obtain ⟨s₁, removed, is⟩ := Option.bind_eq_some_iff.mp is
      obtain ⟨s₂, stored, rest⟩ := Option.bind_eq_some_iff.mp is
      exact (removes _ _ _ removed).trans ((store_shrinks stored fun _ => rfl).trans (ih _ rest))
    · obtain rfl := Option.some.inj is
      exact .refl s

/-- The parts of a call that returns. -/
theorem vnodeRemove_some {fuel : Nat} (some_ : node ≠ 0) (is : vnodeRemove root (fuel + 1) node s = some s') :
    ∃ s₁ s₂, ((s.node node).children = 0 ∧ s₁ = s ∨ (s.node node).children ≠ 0 ∧
        ∃ s₀, removeChildren root (vnodeRemove root fuel) node fuel 0 s = some s₀ ∧ s₀.freeChildren root node = some s₁) ∧
      s₁.freeName root node = some s₂ ∧ s₂.freeNode root node = some s' := by
  rw [vnodeRemove, if_neg some_] at is
  obtain ⟨vnode, seen, is⟩ := Option.bind_eq_some_iff.mp is
  obtain ⟨-, rfl⟩ := read_some seen
  obtain ⟨s₁, children, is⟩ := Option.bind_eq_some_iff.mp is
  obtain ⟨s₂, name, last⟩ := Option.bind_eq_some_iff.mp is
  refine ⟨s₁, s₂, ?_, name, last⟩
  split_ifs at children with leaf
  · exact .inl ⟨leaf, (Option.some.inj children).symm⟩
  · exact .inr ⟨leaf, Option.bind_eq_some_iff.mp children⟩

theorem vnodeRemove_shrinks (fuel node : Nat) (s s' : VnodeHeap) (is : vnodeRemove root fuel node s = some s') :
    s.Shrinks s' := by
  induction fuel generalizing node s s' with
  | zero => cases is
  | succ fuel ih =>
    by_cases none_ : node = 0
    · rw [vnodeRemove, if_pos none_] at is
      obtain rfl := Option.some.inj is
      exact .refl s
    · obtain ⟨s₁, s₂, children, name, last⟩ := vnodeRemove_some none_ is
      refine Shrinks.trans ?_ ((freeName_shrinks name).trans (freeNode_shrinks last))
      rcases children with ⟨-, rfl⟩ | ⟨-, s₀, removed, freed⟩
      · exact .refl _
      · exact (removeChildren_shrinks ih fuel 0 removed).trans (freeChildren_shrinks freed)

/-- A vnode other than _root_vnode is passed to free as it is. -/
theorem vnodeRemove_frees {fuel : Nat} (some_ : node ≠ 0) (other : node ≠ root)
    (is : vnodeRemove root fuel node s = some s') :
    node ∈ s.live.map Prod.fst ∧ node ∉ s'.live.map Prod.fst := by
  cases fuel with
  | zero => cases is
  | succ fuel =>
    obtain ⟨s₁, s₂, children, name, last⟩ := vnodeRemove_some some_ is
    have before : s.Shrinks s₂ := by
      refine Shrinks.trans ?_ (freeName_shrinks name)
      rcases children with ⟨-, rfl⟩ | ⟨-, s₀, removed, freed⟩
      · exact .refl _
      · exact (removeChildren_shrinks (vnodeRemove_shrinks fuel) fuel 0 removed).trans (freeChildren_shrinks freed)
    rw [freeNode, if_neg other, free, if_neg some_] at last
    split_ifs at last with member
    obtain rfl := Option.some.inj last
    constructor
    · obtain ⟨x, live, is⟩ := List.mem_map.mp member
      exact List.mem_map.mpr ⟨x, before.live x live, is⟩
    · intro still
      obtain ⟨x, live, is⟩ := List.mem_map.mp still
      exact absurd is (by simpa using List.of_mem_filter live)

/-- Of the children no more than one is removed, and it is removed before anything else is done. -/
theorem vnodeRemove_children {fuel : Nat} (some_ : node ≠ 0) (kids : (s.node node).children ≠ 0)
    (is : vnodeRemove root fuel node s = some s') : (s.node node).childrenNo.toNat ≤ 1 ∧
      ((s.node node).childrenNo ≠ 0 → s.Returns root (s.node node).children) := by
  cases fuel with
  | zero => cases is
  | succ fuel =>
    obtain ⟨-, -, ⟨leaf, -⟩ | ⟨-, s₀, removed, -⟩, -, -⟩ := vnodeRemove_some some_ is
    · exact absurd leaf kids
    · cases fuel with
      | zero => cases removed
      | succ fuel =>
        obtain ⟨vnode, seen, rest⟩ := Option.bind_eq_some_iff.mp removed
        obtain ⟨-, rfl⟩ := read_some seen
        split_ifs at rest with more null
        · obtain ⟨s₁, first, rest⟩ := Option.bind_eq_some_iff.mp rest
          obtain ⟨s₂, stored, rest⟩ := Option.bind_eq_some_iff.mp rest
          have count := ((vnodeRemove_shrinks _ _ _ _ first).trans (store_shrinks stored fun _ => rfl)).count node
          obtain ⟨-, rfl⟩ := store_some stored
          refine ⟨?_, fun _ => ⟨fuel + 1, s₁, by simpa using first⟩⟩
          by_contra many
          cases fuel with
          | zero => cases rest
          | succ fuel =>
            obtain ⟨vnode, seen, rest⟩ := Option.bind_eq_some_iff.mp rest
            obtain ⟨-, rfl⟩ := read_some seen
            have next : (0 + 1 : BitVec 32).toNat < (s.node node).childrenNo.toNat := Nat.lt_of_not_le many
            rw [count, if_pos next, if_pos ⟨by dsimp only; rw [Function.update_self], by decide⟩] at rest
            cases rest
        · refine ⟨Nat.le_of_not_lt fun many => more (Nat.lt_of_le_of_lt (Nat.zero_le _) many), fun some_ => absurd ?_ more⟩
          exact Nat.pos_of_ne_zero fun zero => some_ (BitVec.eq_of_toNat_eq zero)

end Steps

-- The elements of the array of children.
def Child (s : VnodeHeap) (p c : Nat) : Prop :=
  (s.node p).children ≠ 0 ∧ ∃ i, i < (s.node p).childrenNo.toNat ∧ c = (s.node p).children + i * vnodeSize

abbrev Subtree (s : VnodeHeap) : Nat → Nat → Prop := Relation.ReflTransGen s.Child

/-- What is removed has no vnode with two children. -/
theorem Returns.subtree {root : Nat} {s : VnodeHeap} {v q : Nat} (returns : s.Returns root v) (some_ : v ≠ 0)
    (below : s.Subtree v q) (kids : (s.node q).children ≠ 0) : (s.node q).childrenNo.toNat ≤ 1 := by
  induction below using Relation.ReflTransGen.head_induction_on with
  | refl =>
    obtain ⟨fuel, s', is⟩ := returns
    exact (vnodeRemove_children some_ kids is).1
  | head child _ ih =>
    obtain ⟨array, i, low, rfl⟩ := child
    obtain ⟨fuel, s', is⟩ := returns
    obtain ⟨one, first⟩ := vnodeRemove_children some_ array is
    obtain rfl : i = 0 := by omega
    rw [Nat.zero_mul, Nat.add_zero] at ih
    refine ih (first fun none_ => ?_) array
    rw [none_] at low
    exact absurd low (Nat.not_lt_zero _)

/-- The pointers are freed, one after another, and no others. -/
structure Frees (s : VnodeHeap) (ptrs : List Nat) (s' : VnodeHeap) : Prop where
  freed : s'.freed = s.freed ++ ptrs
  live : ∀ x, x ∈ s'.live ↔ x ∈ s.live ∧ x.1 ∉ ptrs

theorem Frees.nil (s : VnodeHeap) : s.Frees [] s :=
  ⟨(List.append_nil _).symm, fun _ => ⟨fun member => ⟨member, List.not_mem_nil⟩, And.left⟩⟩

theorem Frees.append {s s' s'' : VnodeHeap} {ps qs : List Nat} (first : s.Frees ps s') (second : s'.Frees qs s'') :
    s.Frees (ps ++ qs) s'' where
  freed := by rw [second.freed, first.freed, List.append_assoc]
  live x := by rw [second.live, first.live, and_assoc, List.mem_append, not_or]

theorem Frees.mem {s s' : VnodeHeap} {ps : List Nat} (frees : s.Frees ps s') {p : Nat} (live : p ∈ s.live.map Prod.fst)
    (kept : p ∉ ps) : p ∈ s'.live.map Prod.fst := by
  obtain ⟨x, member, rfl⟩ := List.mem_map.mp live
  exact List.mem_map_of_mem ((frees.live x).mpr ⟨member, kept⟩)

theorem free_frees {s : VnodeHeap} {p : Nat} (some_ : p ≠ 0) (live : p ∈ s.live.map Prod.fst) :
    ∃ s', s.free p = some s' ∧ s.Frees [p] s' ∧ s'.node = s.node := by
  refine ⟨{ s with live := s.live.filter fun x => x.1 ≠ p, freed := s.freed ++ [p] }, ?_, ⟨rfl, fun x => ?_⟩, rfl⟩
  · rw [free, if_neg some_, if_pos live]
  · simp [List.mem_filter]

section Chains

variable (root : Nat)

-- A vnode that is in use for as long as the memory is that it is at the beginning of.
def Heads (s : VnodeHeap) (q : Nat) : Prop := q = root ∨ ∃ size, vnodeSize ≤ size ∧ (q, size) ∈ s.live

theorem Heads.inUse {root : Nat} {s : VnodeHeap} {q : Nat} (heads : s.Heads root q) : s.InUse root q := by
  rcases heads with same | ⟨size, room, live⟩
  · exact .inl same
  · exact .inr ⟨_, live, Nat.le_refl _, Nat.add_le_add_left room q⟩

theorem Heads.kept {root : Nat} {s s' : VnodeHeap} {q : Nat} {ps : List Nat} (heads : s.Heads root q)
    (frees : s.Frees ps s') (kept : q ≠ root → q ∉ ps) : s'.Heads root q := by
  by_cases same : q = root
  · exact .inl same
  · obtain ⟨size, room, live⟩ := heads.resolve_left same
    exact .inr ⟨size, room, (frees.live _).mpr ⟨live, kept same⟩⟩

-- What is freed for a vnode itself: its name, and the memory that it is at the beginning of.
def ownName (s : VnodeHeap) (q : Nat) : List Nat := if (s.node q).name = 0 then [] else [(s.node q).name]

def ownNode (q : Nat) : List Nat := if q = root then [] else [q]

def owned (s : VnodeHeap) (q : Nat) : List Nat := s.ownName q ++ ownNode root q

theorem freeName_frees {s : VnodeHeap} {q : Nat} (heads : s.Heads root q) (apart : q ≠ root → q ∉ s.ownName q)
    (live : ∀ p, p ∈ s.ownName q → p ∈ s.live.map Prod.fst) :
    ∃ s', s.freeName root q = some s' ∧ s.Frees (s.ownName q) s' ∧ ∀ p, p ≠ q → s'.node p = s.node p := by
  rw [freeName, read, if_pos heads.inUse, Option.bind_some]
  by_cases unnamed : (s.node q).name = 0
  · have none_ : s.ownName q = [] := if_pos unnamed
    rw [none_, if_pos unnamed]
    exact ⟨s, rfl, .nil s, fun _ _ => rfl⟩
  · have one : s.ownName q = [(s.node q).name] := if_neg unnamed
    rw [one] at live apart ⊢
    obtain ⟨s₁, freed, frees, same⟩ := free_frees unnamed (live _ List.mem_cons_self)
    have use : s₁.InUse root q := (heads.kept frees apart).inUse
    rw [if_neg unnamed, freed, Option.bind_some, store, if_pos use]
    refine ⟨_, rfl, ⟨frees.freed, frees.live⟩, fun p other => ?_⟩
    exact (Function.update_of_ne other ..).trans (congrFun same p)

theorem freeNode_frees {s : VnodeHeap} {q : Nat} (some_ : q ≠ 0)
    (live : ∀ p, p ∈ ownNode root q → p ∈ s.live.map Prod.fst) :
    ∃ s', s.freeNode root q = some s' ∧ s.Frees (ownNode root q) s' ∧ s'.node = s.node := by
  by_cases top : q = root
  · rw [ownNode, if_pos top, freeNode, if_pos top]
    exact ⟨s, rfl, .nil s, rfl⟩
  · rw [ownNode, if_neg top] at live ⊢
    rw [freeNode, if_neg top]
    exact free_frees some_ (live q List.mem_cons_self)

/-- The end of vnode_remove. -/
theorem release {s : VnodeHeap} {q : Nat} (some_ : q ≠ 0) (heads : s.Heads root q) (once : (s.owned root q).Nodup)
    (live : ∀ p, p ∈ s.owned root q → p ∈ s.live.map Prod.fst) :
    ∃ s', ((s.freeName root q).bind fun s => s.freeNode root q) = some s' ∧ s.Frees (s.owned root q) s' ∧
      ∀ p, p ≠ q → s'.node p = s.node p := by
  have apart : ∀ p, p ∈ ownNode root q → p ∉ s.ownName q := fun p node name =>
    (List.nodup_append.mp once).2.2 p name p node rfl
  have self : q ≠ root → q ∈ ownNode root q := fun other => by
    rw [ownNode, if_neg other]
    exact List.mem_cons_self
  obtain ⟨s₁, named, names, first⟩ := freeName_frees root heads (fun other => apart q (self other))
    fun p member => live p (List.mem_append_left _ member)
  obtain ⟨s₂, freed, nodes, second⟩ := freeNode_frees (s := s₁) root some_ fun p member =>
    names.mem (live p (List.mem_append_right _ member)) (apart p member)
  exact ⟨s₂, by rw [named, Option.bind_some, freed], names.append nodes, fun p other => by rw [second, first p other]⟩

/-- The only child is removed, and the array is null by then. -/
theorem removeChildren_only {remove : Nat → VnodeHeap → Option VnodeHeap} {s s₁ : VnodeHeap} {q : Nat}
    (fuel : Nat) (use : s.InUse root q) (array : (s.node q).children ≠ 0) (one : (s.node q).childrenNo = 1)
    (removed : remove (s.node q).children s = some s₁) (kept : s₁.node q = s.node q) (still : s₁.InUse root q) :
    ∃ s₂, ((removeChildren root remove q (fuel + 2) 0 s).bind fun s => s.freeChildren root q) = some s₂ ∧
      s₂.live = s₁.live ∧ s₂.freed = s₁.freed ∧ (s₂.node q).name = (s.node q).name ∧
        ∀ p, p ≠ q → s₂.node p = s₁.node p := by
  let cleared : VnodeHeap := { s₁ with node := Function.update s₁.node q { s₁.node q with children := 0 } }
  have null : (cleared.node q).children = 0 := congrArg (·.toChildren.children) (Function.update_self q _ s₁.node)
  have count : (cleared.node q).childrenNo = 1 :=
    (congrArg (·.toChildren.childrenNo) (Function.update_self q _ s₁.node)).trans (kept ▸ one)
  have name : (cleared.node q).name = (s.node q).name :=
    (congrArg (·.name) (Function.update_self q _ s₁.node)).trans (kept ▸ rfl)
  have stays : cleared.InUse root q := still
  have loop : removeChildren root remove q (fuel + 2) 0 s = some cleared := by
    have first : (0 : BitVec 32).toNat < (s.node q).childrenNo.toNat := by
      rw [one]
      decide
    have last : ¬(0 + 1 : BitVec 32).toNat < (cleared.node q).childrenNo.toNat := by
      rw [count]
      decide
    rw [removeChildren, read, if_pos use, Option.bind_some, if_pos first, if_neg fun none_ => array none_.1]
    have place : (s.node q).children + (0 : BitVec 32).toNat * vnodeSize = (s.node q).children := by simp
    rw [place, removed, Option.bind_some, store, if_pos still, Option.bind_some, removeChildren, read, if_pos stays,
      Option.bind_some, if_neg last]
  let done : VnodeHeap := { cleared with node := Function.update cleared.node q { cleared.node q with children := 0 } }
  have freed : cleared.freeChildren root q = some done := by
    rw [freeChildren, read, if_pos stays, Option.bind_some, free, if_pos null, Option.bind_some, store, if_pos stays]
  refine ⟨done, by rw [loop, Option.bind_some, freed], rfl, rfl, ?_, fun p other => ?_⟩
  · rw [← name]
    simp only [done, Function.update_self]
  · exact (Function.update_of_ne other _ cleared.node).trans (Function.update_of_ne other _ s₁.node)

/-- A vnode without children, or with one child and so on. -/
def Chain (s : VnodeHeap) : Nat → List Nat → Prop
  | q, [] => (s.node q).children = 0
  | q, c :: cs => (s.node q).children = c ∧ c ≠ 0 ∧ (s.node q).childrenNo = 1 ∧ s.Chain c cs

def chainFrees (s : VnodeHeap) : Nat → List Nat → List Nat
  | q, [] => s.owned root q
  | q, c :: cs => s.chainFrees c cs ++ s.owned root q

theorem vnodeRemove_chain {s : VnodeHeap} {q : Nat} {cs : List Nat} (chain : s.Chain q cs) (some_ : q ≠ 0)
    (heads : ∀ p, p ∈ q :: cs → s.Heads root p) (distinct : (q :: cs).Nodup) (once : (s.chainFrees root q cs).Nodup)
    (live : ∀ p, p ∈ s.chainFrees root q cs → p ∈ s.live.map Prod.fst) :
    ∃ s', vnodeRemove root (cs.length + 2) q s = some s' ∧ s.Frees (s.chainFrees root q cs) s' ∧
      ∀ p, p ∉ q :: cs → s'.node p = s.node p := by
  induction cs generalizing q with
  | nil =>
    obtain ⟨s', released, frees, kept⟩ := release root some_ (heads q List.mem_cons_self) once live
    refine ⟨s', ?_, frees, fun p outside => kept p fun same => outside (List.mem_singleton.mpr same)⟩
    have leaf : (s.node q).children = 0 := chain
    rw [vnodeRemove, if_neg some_, read, if_pos (heads q List.mem_cons_self).inUse, Option.bind_some, if_pos leaf,
      Option.bind_some]
    exact released
  | cons c cs ih =>
    obtain ⟨array, child, one, rest⟩ := chain
    obtain ⟨fresh, later⟩ := List.nodup_cons.mp distinct
    obtain ⟨onceRest, onceOwn, apart⟩ := List.nodup_append.mp once
    obtain ⟨s₁, removed, frees, kept⟩ := ih rest child (fun p member => heads p (List.mem_cons_of_mem _ member)) later
      onceRest fun p member => live p (List.mem_append_left _ member)
    have top := heads q List.mem_cons_self
    have self : q ≠ root → q ∉ s.chainFrees root c cs := fun other member => by
      refine apart q member q (List.mem_append_right _ ?_) rfl
      rw [ownNode, if_neg other]
      exact List.mem_cons_self
    have top₁ : s₁.Heads root q := top.kept frees self
    obtain ⟨s₂, cleared, live₂, freed₂, name, others⟩ := removeChildren_only root cs.length top.inUse
      (array ▸ child) one (array ▸ removed) (kept q fresh) top₁.inUse
    have frees₂ : s.Frees (s.chainFrees root c cs) s₂ := ⟨freed₂ ▸ frees.freed, live₂ ▸ frees.live⟩
    have own : s₂.owned root q = s.owned root q := by rw [owned, owned, ownName, ownName, name]
    have ownLive : ∀ p, p ∈ s₂.owned root q → p ∈ s₂.live.map Prod.fst := fun p member => by
      rw [own] at member
      exact frees₂.mem (live p (List.mem_append_right _ member)) fun before => apart p before p member rfl
    obtain ⟨s₃, released, last, rest₃⟩ := release root some_ (top.kept frees₂ self) (own ▸ onceOwn) ownLive
    refine ⟨s₃, ?_, frees₂.append (own ▸ last), fun p outside => ?_⟩
    · rw [List.length_cons, vnodeRemove, if_neg some_, read, if_pos top.inUse, Option.bind_some, if_neg (array ▸ child)]
      rw [cleared, Option.bind_some, released]
    · obtain ⟨other, outside⟩ := not_or.mp (mt List.mem_cons.mpr outside)
      rw [rest₃ p other, others p other, kept p outside]

theorem mem_owned {s : VnodeHeap} {q p : Nat} :
    p ∈ s.owned root q ↔ (s.node q).name ≠ 0 ∧ p = (s.node q).name ∨ q ≠ root ∧ p = q := by
  rw [owned, ownName, ownNode]
  refine List.mem_append.trans (or_congr ?_ ?_)
  · split_ifs with unnamed
    · exact ⟨fun member => absurd member List.not_mem_nil, fun named => absurd unnamed named.1⟩
    · exact List.mem_singleton.trans ⟨fun is => ⟨unnamed, is⟩, And.right⟩
  · split_ifs with top
    · exact ⟨fun member => absurd member List.not_mem_nil, fun other => absurd top other.1⟩
    · exact List.mem_singleton.trans ⟨fun is => ⟨top, is⟩, And.right⟩

theorem nodup_owned {s : VnodeHeap} {q : Nat} (apart : (s.node q).name ≠ 0 → q ≠ root → (s.node q).name ≠ q) :
    (s.owned root q).Nodup := by
  rw [owned, ownName, ownNode]
  split_ifs with unnamed top top
  · exact List.nodup_nil
  · exact List.nodup_singleton q
  · exact List.nodup_singleton _
  · exact List.nodup_cons.mpr ⟨fun member => apart unnamed top (List.mem_singleton.mp member), List.nodup_singleton q⟩

theorem mem_chainFrees {s : VnodeHeap} {q p : Nat} {cs : List Nat} :
    p ∈ s.chainFrees root q cs ↔ ∃ a, a ∈ q :: cs ∧ p ∈ s.owned root a := by
  induction cs generalizing q with
  | nil => simp [chainFrees]
  | cons c cs ih =>
    rw [chainFrees, List.mem_append, ih, or_comm]
    simp only [List.mem_cons, or_and_right, exists_or, exists_eq_left]

/-- Each pointer is freed once, if the vnodes own different ones. -/
theorem nodup_chainFrees {s : VnodeHeap} {q : Nat} {cs : List Nat} (distinct : (q :: cs).Nodup)
    (own : ∀ a, a ∈ q :: cs → (s.owned root a).Nodup)
    (apart : ∀ a b, a ∈ q :: cs → b ∈ q :: cs → a ≠ b → ∀ p, p ∈ s.owned root a → p ∉ s.owned root b) :
    (s.chainFrees root q cs).Nodup := by
  induction cs generalizing q with
  | nil => exact own q List.mem_cons_self
  | cons c cs ih =>
    obtain ⟨fresh, later⟩ := List.nodup_cons.mp distinct
    have rest := ih later (fun a member => own a (List.mem_cons_of_mem _ member)) fun a b first second =>
      apart a b (List.mem_cons_of_mem _ first) (List.mem_cons_of_mem _ second)
    refine List.nodup_append.mpr ⟨rest, own q List.mem_cons_self, ?_⟩
    rintro p before _ mine rfl
    obtain ⟨a, member, owns⟩ := (mem_chainFrees root).mp before
    refine apart a q (List.mem_cons_of_mem _ member) List.mem_cons_self ?_ p owns mine
    rintro rfl
    exact fresh member

theorem Chain.subtree {s : VnodeHeap} {q a : Nat} {cs : List Nat} (chain : s.Chain q cs) (below : s.Subtree q a) :
    a ∈ q :: cs := by
  induction cs generalizing q with
  | nil =>
    rcases below.cases_head with rfl | ⟨b, ⟨array, -⟩, -⟩
    · exact List.mem_cons_self
    · exact absurd chain array
  | cons c cs ih =>
    obtain ⟨array, child, one, rest⟩ := chain
    rcases below.cases_head with rfl | ⟨b, ⟨-, i, low, rfl⟩, below⟩
    · exact List.mem_cons_self
    · rw [one] at low
      obtain rfl : i = 0 := Nat.lt_one_iff.mp low
      rw [array, Nat.zero_mul, Nat.add_zero] at below
      exact List.mem_cons_of_mem _ (ih rest below)

end Chains

end VnodeHeap

end Anthill
