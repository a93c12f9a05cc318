import Anthill.HeapRuns
import Mathlib.Data.List.Nodup

set_option autoImplicit false

namespace Anthill

open Bytes (Store)

-- sizeof(struct vnode)
def vnodeSize : Nat := 56

/-- The fields children and children_no of a vnode. -/
structure Children where
  children : Nat
  childrenNo : BitVec 32

/-- The loop of vnode_add_child. Its `n` is an unsigned short. -/
def childRoom : Nat → BitVec 32 → BitVec 16 → Option (BitVec 16)
  | 0, _, _ => none
  | fuel + 1, childrenNo, n => if n.toNat < childrenNo.toNat then childRoom fuel childrenNo (n * 2) else some n

namespace Children

variable (other : Nat → Bool)

-- The call for more space, if it is needed.
def moreSpace (vnode : Children) (n : BitVec 16) : Option HeapCall :=
  if vnode.childrenNo = 0 then some (.malloc (BitVec.ofNat 64 (4 * vnodeSize)))
  else if 4 < n.toNat ∧ n.toNat < (vnode.childrenNo + 1).toNat then
    some (.realloc vnode.children (BitVec.ofNat 64 (n.toNat * 2)))
  else none

-- The last lines of vnode_add_child, with the child that it returns.
def added (vnode : Children) : Option Nat × Children :=
  let vnode := { vnode with childrenNo := vnode.childrenNo + 1 }
  (some (vnode.children + (vnode.childrenNo - 1).toNat * vnodeSize), vnode)

def vnodeAddChild (fuel : Nat) (replies : List (Option Nat)) (vnode : Children) (h : Arena) :
    HeapResult (Option Nat × Children) :=
  match childRoom fuel vnode.childrenNo 1 with
  | none => .unfinished h
  | some n =>
    match vnode.moreSpace n with
    | none => .ok vnode.added h
    | some call =>
      (call.run other fuel replies h).bind fun temp h =>
        if temp = 0 then .ok (none, if vnode.childrenNo = 0 then { vnode with children := 0 } else vnode) h
        else .ok ({ vnode with children := temp } : Children).added h

end Children

/-- A process while a vnode gets children: its heap, the children of the vnode, and the pointers to them that
vnode_add_child has returned, which the tables of the process may hold. -/
structure ChildUse where
  heap : HeapUse
  vnode : Children
  given : List Nat

def noChildren (mem : Store) : ChildUse := ⟨noHeap mem, ⟨0, 0⟩, []⟩

namespace ChildUse

variable (other : Nat → Bool)

/-- A call of vnode_add_child that returns the child `c`. -/
def Adds (s : ChildUse) (c : Nat) (s' : ChildUse) : Prop :=
  ∃ fuel replies n vnode h, s.heap.1.Fresh other replies ∧ childRoom fuel s.vnode.childrenNo 1 = some n ∧
    s.vnode.vnodeAddChild other fuel replies s.heap.1 = .ok (some c, vnode) h ∧
    s' = ⟨(h, (s.vnode.moreSpace n).elim s.heap.2 fun call => call.live vnode.children s.heap.2), vnode, c :: s.given⟩

-- A vnode in memory that is in use.
def InUse (s : ChildUse) (q : Nat) : Prop := ∃ x, x ∈ s.heap.2 ∧ x.1 ≤ q ∧ q + vnodeSize ≤ x.1 + x.2

-- A vnode in the memory that is allocated for the children.
def Inside (s : ChildUse) (q : Nat) : Prop :=
  ∃ x, x ∈ s.heap.2 ∧ x.1 = s.vnode.children ∧ x.1 ≤ q ∧ q + vnodeSize ≤ x.1 + x.2

/-- The child that vnode_add_child returns is inside the memory for the children, the children from before keep their
contents, and the pointers that it has returned before are to children, as all others are to memory in use. -/
structure AddKeeps (s : ChildUse) (c : Nat) (s' : ChildUse) : Prop where
  inside : s'.Inside c
  kept : ∀ i, i < s.given.length * vnodeSize →
    s'.heap.1.mem (s'.vnode.children + i) = s.heap.1.mem (s.vnode.children + i)
  held : ∀ q, q ∈ s.given → s'.Inside q ∧ ∃ i, i < s'.given.length ∧ q = s'.vnode.children + i * vnodeSize
  alive : ∀ q, s.InUse q → s'.InUse q

end ChildUse

/-- What the process does: it adds a child, or it calls the heap and stores to its memory, where it leaves the memory
of the children in use. -/
inductive ChildCall where
  | add
  | heap (call : HeapCall)

namespace ChildCall

variable (other : Nat → Bool)

def Step (s : ChildUse) (call : ChildCall) (s' : ChildUse) : Prop :=
  match call with
  | .add => ∃ c, s.Adds other c s'
  | .heap call => HeapCall.Step other s.heap call s'.heap ∧ s' = { s with heap := s'.heap } ∧
    ∀ x, x ∈ s.heap.2 → x.1 = s.vnode.children → x ∈ s'.heap.2

/-- The calls for which the heap merges blocks as it should. -/
def Fits (s : ChildUse) : ChildCall → Prop
  | .add => 4 < s.given.length →
    (HeapCall.realloc s.vnode.children (BitVec.ofNat 64 (s.given.length * 2))).Fits other Arena.Matched s.heap
  | .heap call => call.Fits other Arena.Matched s.heap

end ChildCall

theorem childRoom_ge {fuel : Nat} {childrenNo : BitVec 32} {n r : BitVec 16} (room : childRoom fuel childrenNo n = some r) :
    childrenNo.toNat ≤ r.toNat := by
  induction fuel generalizing n with
  | zero => cases room
  | succ fuel ih =>
    rw [childRoom] at room
    split_ifs at room with more
    · exact ih room
    · obtain rfl := Option.some.inj room
      exact Nat.le_of_not_lt more

-- The powers of two of an unsigned short end in 0.
theorem childRoom_stuck {childrenNo : BitVec 32} (many : 2 ^ 15 < childrenNo.toNat) (fuel i : Nat) :
    childRoom fuel childrenNo (BitVec.twoPow 16 i) = none := by
  induction fuel generalizing i with
  | zero => rfl
  | succ fuel ih =>
    have least : (BitVec.twoPow 16 i).toNat ≤ 2 ^ 15 := by
      by_cases high : 16 ≤ i
      · rw [BitVec.toNat_twoPow_of_le high]
        exact Nat.zero_le _
      · rw [BitVec.toNat_twoPow_of_lt (Nat.lt_of_not_le high)]
        exact Nat.pow_le_pow_right (by decide) (by omega)
    have twice : BitVec.twoPow 16 i * 2 = BitVec.twoPow 16 (i + 1) := by
      rw [BitVec.twoPow_eq, BitVec.twoPow_eq, BitVec.shiftLeft_add, BitVec.shiftLeft_eq_mul_twoPow (n := 1)]
      rfl
    rw [childRoom, if_pos (Nat.lt_of_le_of_lt least many), twice]
    exact ih (i + 1)

/-- With more than 2^15 children vnode_add_child does not return. -/
theorem Children.vnodeAddChild_stuck (other : Nat → Bool) {vnode : Children} (many : 2 ^ 15 < vnode.childrenNo.toNat)
    (fuel : Nat) (replies : List (Option Nat)) (h : Arena) :
    vnode.vnodeAddChild other fuel replies h = .unfinished h := by
  have stuck : childRoom fuel vnode.childrenNo 1 = none := childRoom_stuck many fuel 0
  rw [vnodeAddChild, stuck]

theorem HeapResult.bind_ok {α β : Type} {result : HeapResult α} {f : α → Arena → HeapResult β} {value : β} {h : Arena}
    (is : result.bind f = .ok value h) : ∃ r h', result = .ok r h' ∧ f r h' = .ok value h := by
  cases result with
  | ok r h' => exact ⟨r, h', rfl, is⟩
  | fault => cases is
  | overread => cases is
  | unfinished => cases is

namespace ChildUse

variable {other : Nat → Bool} {s s' : ChildUse} {c : Nat}

/-- What lies between calls. The memory for the children has room for four of them for as long as there are four. -/
structure Grown (other : Nat → Bool) (s : ChildUse) : Prop where
  sound : ∃ blocks, s.heap.1.Sound False other blocks s.heap.2
  count : s.vnode.childrenNo.toNat = s.given.length
  array : s.given ≠ [] → ∃ size, (s.vnode.children, size) ∈ s.heap.2 ∧
    size ≤ max (4 * vnodeSize) (s.given.length * 2) ∧ (s.given.length ≤ 4 → size = 4 * vnodeSize)
  slots : s.given.length ≤ 4 → ∀ q, q ∈ s.given → ∃ i, i < s.given.length ∧ q = s.vnode.children + i * vnodeSize

/-- What realloc returns was not in use. -/
theorem realloc_new {h h' : Arena} {live : List (Nat × Nat)} {fuel ptr r : Nat} {replies : List (Option Nat)}
    {size : BitVec 64} (sound : ∃ blocks, h.Sound False other blocks live) (fresh : h.Fresh other replies)
    (fits : size.toNat + blockSize < 2 ^ 64) (is : h.realloc other fuel replies ptr size = .ok r h') (some : r ≠ 0) :
    r ∉ live.map Prod.fst := by
  obtain ⟨blocks, sound⟩ := sound
  rw [Arena.realloc] at is
  obtain ⟨copy, h₁, copied, is⟩ := HeapResult.bind_ok is
  have kept := sound.reallocCopy fuel replies fresh ptr size fits
  rw [copied] at kept
  obtain ⟨blocks', sound'⟩ := kept
  by_cases failed : copy = 0
  · rw [if_pos failed] at is
    exact absurd (HeapResult.ok.inj is).1.symm some
  · rw [if_neg failed] at is sound'
    obtain ⟨-, h₂, -, is⟩ := HeapResult.bind_ok is
    obtain rfl := (HeapResult.ok.inj is).1
    exact (List.nodup_cons.mp sound'.once).1

/-- The ways of a call of vnode_add_child: the first child, more space, and no call of the heap. -/
inductive AddsBy (other : Nat → Bool) (s : ChildUse) (s' : ChildUse) : Prop where
  | first (none : s.vnode.childrenNo = 0)
      (step : HeapCall.Step other s.heap (.malloc (BitVec.ofNat 64 (4 * vnodeSize))) s'.heap)
      (live : s'.heap.2 = (s'.vnode.children, 4 * vnodeSize) :: s.heap.2)
  | moved (many : 4 < s.vnode.childrenNo.toNat) (size : BitVec 64) (twice : size.toNat = s.vnode.childrenNo.toNat * 2)
      (step : (HeapCall.realloc s.vnode.children size).Legal s.heap →
        HeapCall.Step other s.heap (.realloc s.vnode.children size) s'.heap)
      (live : s'.heap.2 = (s'.vnode.children, size.toNat) :: s.heap.2.filter fun x => x.1 ≠ s.vnode.children)
      (new : (∃ blocks, s.heap.1.Sound False other blocks s.heap.2) → s'.vnode.children ∉ s.heap.2.map Prod.fst)
  | same (some : s.vnode.childrenNo ≠ 0) (heap : s'.heap = s.heap) (children : s'.vnode.children = s.vnode.children)

theorem added_some {vnode vnode' : Children} {n : BitVec 16} (enough : vnode.childrenNo.toNat ≤ n.toNat)
    (added : vnode.added = (some c, vnode')) : vnode'.children = vnode.children ∧
      vnode'.childrenNo.toNat = vnode.childrenNo.toNat + 1 ∧ c = vnode.children + vnode.childrenNo.toNat * vnodeSize := by
  obtain ⟨first, rfl⟩ := Prod.mk.inj added
  have bound := n.isLt
  refine ⟨rfl, ?_, ?_⟩
  · change (vnode.childrenNo + 1).toNat = _
    rw [BitVec.toNat_add]
    exact Nat.mod_eq_of_lt (by change _ + 1 < _; omega)
  · rw [← Option.some.inj first, BitVec.add_sub_cancel]

theorem Adds.returns (adds : s.Adds other c s') : s'.given = c :: s.given ∧
    s'.vnode.childrenNo.toNat = s.vnode.childrenNo.toNat + 1 ∧
    c = s'.vnode.children + s.vnode.childrenNo.toNat * vnodeSize ∧ AddsBy other s s' := by
  obtain ⟨fuel, replies, n, vnode, h, fresh, room, is, rfl⟩ := adds
  have enough := childRoom_ge room
  refine ⟨rfl, ?_⟩
  rw [Children.vnodeAddChild, room] at is
  dsimp only at is ⊢
  cases space : s.vnode.moreSpace n with
  | none =>
    rw [space] at is
    obtain ⟨added, rfl⟩ := HeapResult.ok.inj is
    obtain ⟨children, count, child⟩ := added_some enough added
    refine ⟨count, children ▸ child, .same (fun none => ?_) rfl children⟩
    rw [Children.moreSpace, if_pos none] at space
    cases space
  | some call =>
    rw [space] at is
    obtain ⟨temp, h', ran, is⟩ := HeapResult.bind_ok is
    by_cases failed : temp = 0
    · rw [if_pos failed] at is
      cases (Prod.mk.inj (HeapResult.ok.inj is).1).1
    rw [if_neg failed] at is
    obtain ⟨added, rfl⟩ := HeapResult.ok.inj is
    obtain ⟨rfl, count, child⟩ := @added_some c ⟨temp, s.vnode.childrenNo⟩ _ _ enough added
    refine ⟨count, child, ?_⟩
    rw [Children.moreSpace] at space
    split_ifs at space with none more
    · obtain rfl := Option.some.inj space
      exact .first none ⟨fuel, replies, _, trivial, fresh, ran, rfl⟩ (if_neg failed)
    · obtain rfl := Option.some.inj space
      have whole : n.toNat = s.vnode.childrenNo.toNat := by
        have most : (s.vnode.childrenNo + 1).toNat ≤ s.vnode.childrenNo.toNat + 1 := by
          rw [BitVec.toNat_add]
          exact Nat.mod_le ..
        omega
      have bound := n.isLt
      have twice : (BitVec.ofNat 64 (n.toNat * 2)).toNat = s.vnode.childrenNo.toNat * 2 := by
        rw [BitVec.toNat_ofNat, whole]
        omega
      refine .moved (whole ▸ more.1) _ twice (fun legal => ⟨fuel, replies, _, legal, fresh, ran, rfl⟩) (if_neg failed)
        fun sound => realloc_new sound fresh ?_ ran failed
      rw [twice, blockSize]
      omega

theorem Grown.none (grown : s.Grown other) (none : s.vnode.childrenNo = 0) : s.given = [] := by
  refine List.length_eq_zero_iff.mp ?_
  rw [← grown.count, none]
  rfl

theorem Grown.some (grown : s.Grown other) (some : s.vnode.childrenNo ≠ 0) : s.given ≠ [] := by
  intro none
  have count := grown.count
  rw [none] at count
  exact some (BitVec.eq_of_toNat_eq count)

theorem Grown.legal (grown : s.Grown other) (many : 4 < s.vnode.childrenNo.toNat) (size : BitVec 64) :
    (HeapCall.realloc s.vnode.children size).Legal s.heap := by
  have some : s.given ≠ [] := by
    rintro none
    rw [grown.count, none] at many
    exact Nat.not_lt_zero _ many
  obtain ⟨size, member, -, -⟩ := grown.array some
  exact .inr (List.mem_map_of_mem member)

theorem Grown.called {call : HeapCall} (grown : s.Grown other) (fits : call.Fits other Arena.Matched s.heap)
    (step : HeapCall.Step other s.heap call s'.heap) : ∃ blocks, s'.heap.1.Sound False other blocks s'.heap.2 := by
  obtain ⟨blocks, sound⟩ := grown.sound
  exact HeapCall.step_keeps other (fun h b matched => ⟨matched, False.elim⟩) sound fits step

theorem Grown.add (grown : s.Grown other) (fits : ChildCall.add.Fits other s) (adds : s.Adds other c s') :
    s'.Grown other := by
  obtain ⟨given, count, child, ways⟩ := adds.returns
  have length : s'.given.length = s.given.length + 1 := congrArg List.length given
  have counts : s'.vnode.childrenNo.toNat = s'.given.length := by rw [count, length, grown.count]
  rw [grown.count] at child
  have last (children : s.given.length = 0 ∨ s'.vnode.children = s.vnode.children) (few : s'.given.length ≤ 4) (q : Nat)
      (member : q ∈ s'.given) : ∃ i, i < s'.given.length ∧ q = s'.vnode.children + i * vnodeSize := by
    rw [given] at member
    rcases List.mem_cons.mp member with rfl | before
    · exact ⟨s.given.length, by omega, child⟩
    · rcases children with none | same
      · rw [List.length_eq_zero_iff.mp none] at before
        exact absurd before List.not_mem_nil
      · obtain ⟨i, low, is⟩ := grown.slots (by omega) q before
        exact ⟨i, by omega, same ▸ is⟩
  cases ways with
  | first none step live =>
    have empty := congrArg List.length (grown.none none)
    refine ⟨grown.called ?_ step, counts, fun _ => ⟨4 * vnodeSize, ?_, Nat.le_max_left .., fun _ => rfl⟩, last (.inl empty)⟩
    · exact (by decide : (BitVec.ofNat 64 (4 * vnodeSize)).toNat + blockSize < 2 ^ 64)
    · exact live ▸ List.mem_cons_self ..
  | moved many size twice step live _ =>
    rw [grown.count] at many twice
    have is : size = BitVec.ofNat 64 (s.given.length * 2) := by rw [← twice, BitVec.ofNat_toNat, BitVec.setWidth_eq]
    have fit : (HeapCall.realloc s.vnode.children size).Fits other Arena.Matched s.heap := is ▸ fits many
    refine ⟨grown.called fit (step (grown.legal (grown.count ▸ many) size)), counts,
      fun _ => ⟨size.toNat, ?_, by omega, by omega⟩, by omega⟩
    exact live ▸ List.mem_cons_self ..
  | same some heap children =>
    obtain ⟨size, member, most, exactly⟩ := grown.array (grown.some some)
    refine ⟨heap ▸ grown.sound, counts, fun _ => ⟨size, ?_, by omega, fun few => exactly (by omega)⟩,
      last (.inr children)⟩
    rw [children, heap]
    exact member

theorem Grown.step (grown : s.Grown other) (call : ChildCall) (fits : call.Fits other s) (step : call.Step other s s') :
    s'.Grown other := by
  cases call with
  | add =>
    obtain ⟨c, adds⟩ := step
    exact grown.add fits adds
  | heap call =>
    obtain ⟨step, same, leaves⟩ := step
    have vnode : s'.vnode = s.vnode := by rw [same]
    have given : s'.given = s.given := by rw [same]
    refine ⟨grown.called fits step, ?_, fun some => ?_, fun few q member => ?_⟩
    · rw [vnode, given]
      exact grown.count
    · rw [given] at some ⊢
      obtain ⟨size, member, most, exactly⟩ := grown.array some
      rw [vnode]
      exact ⟨size, leaves _ member rfl, most, exactly⟩
    · rw [given] at few member ⊢
      rw [vnode]
      exact grown.slots few q member

theorem noChildren_grown (mem : Store) : (noChildren mem).Grown other :=
  ⟨⟨∅, noHeap_sound mem⟩, rfl, fun some => absurd rfl some, fun _ _ member => absurd member List.not_mem_nil⟩

theorem Grown.small (grown : s.Grown other) (some : s.given ≠ []) {x : Nat × Nat} (member : x ∈ s.heap.2)
    (at' : x.1 = s.vnode.children) : x.2 ≤ max (4 * vnodeSize) (s.given.length * 2) := by
  obtain ⟨blocks, sound⟩ := grown.sound
  obtain ⟨size, there, most, -⟩ := grown.array some
  have same : x = (s.vnode.children, size) := List.inj_on_of_nodup_map sound.once member there at'
  rwa [same]

/-- The memory for the children has no room for a fifth. -/
theorem Grown.full (grown : s.Grown other) (adds : s.Adds other c s') (many : 4 ≤ s.given.length) : ¬s'.Inside c := by
  rintro ⟨x, member, at', -, high⟩
  obtain ⟨-, -, child, ways⟩ := adds.returns
  rw [grown.count] at child
  have large : (s.given.length + 1) * vnodeSize ≤ x.2 := by
    rw [child, at'] at high
    rw [Nat.succ_mul]
    omega
  rw [vnodeSize] at large
  cases ways with
  | first none =>
    rw [grown.none none] at many
    exact absurd many (by decide)
  | moved more size twice step live new =>
    rw [grown.count] at twice
    rw [live] at member
    rcases List.mem_cons.mp member with rfl | before
    · dsimp only at large
      omega
    · refine new ?_ (at' ▸ List.mem_map_of_mem (List.mem_of_mem_filter before))
      exact grown.sound
  | same some heap children =>
    have small := grown.small (grown.some some) (heap ▸ member) (at'.trans children)
    rw [vnodeSize] at small
    omega

theorem Grown.room (grown : s.Grown other) (some : s.given ≠ []) (few : s.given.length ≤ 4) {i : Nat}
    (low : i < s.given.length) : s.Inside (s.vnode.children + i * vnodeSize) := by
  obtain ⟨size, member, -, exactly⟩ := grown.array some
  obtain rfl := exactly few
  refine ⟨_, member, rfl, Nat.le_add_right .., ?_⟩
  rw [vnodeSize]
  dsimp only
  omega

/-- In every run of a process, a call of vnode_add_child gives a child inside the memory for the children and leaves
the children from before and the pointers to them, if and only if fewer than four calls have been made before. -/
theorem addKeeps_iff (mem : Store) (run : Run (ChildCall.Step other) (fun s call => call.Fits other s) (noChildren mem) s)
    (adds : s.Adds other c s') : s.AddKeeps c s' ↔ s.given.length < 4 := by
  have grown : s.Grown other := run.invariant (Grown other) (noChildren_grown mem) fun s call s' grown fits step =>
    grown.step call fits step
  constructor
  · intro keeps
    by_contra many
    exact grown.full adds (Nat.le_of_not_lt many) keeps.inside
  · intro few
    have next := grown.add (fun many => absurd few (Nat.not_lt_of_gt many)) adds
    obtain ⟨given, count, child, ways⟩ := adds.returns
    have length : s'.given.length = s.given.length + 1 := congrArg List.length given
    have some : s'.given ≠ [] := given ▸ List.cons_ne_nil c s.given
    rw [grown.count] at child
    have inside : s'.Inside c := child ▸ next.room some (by omega) (by omega)
    have held (q : Nat) (member : q ∈ s.given) :
        s'.Inside q ∧ ∃ i, i < s'.given.length ∧ q = s'.vnode.children + i * vnodeSize := by
      obtain ⟨i, low, is⟩ := next.slots (by omega) q (given ▸ List.mem_cons_of_mem _ member)
      exact ⟨is ▸ next.room some (by omega) low, i, low, is⟩
    cases ways with
    | first none step live =>
      refine ⟨inside, fun i low => ?_, held, fun q ⟨x, member, place⟩ => ⟨x, ?_, place⟩⟩
      · rw [grown.none none] at low
        exact absurd low (Nat.not_lt_zero _)
      · exact live ▸ List.mem_cons_of_mem _ member
    | moved many =>
      rw [grown.count] at many
      omega
    | same some heap children =>
      refine ⟨inside, fun i low => ?_, held, fun q ⟨x, member, place⟩ => ⟨x, ?_, place⟩⟩
      · rw [heap, children]
      · exact heap ▸ member

-- A call of vnode_add_child of a process that has but its heap.
def take (s : ChildUse) (replies : List (Option Nat)) : Option ChildUse :=
  match childRoom 64 s.vnode.childrenNo 1, s.vnode.vnodeAddChild noOther 64 replies s.heap.1 with
  | some n, .ok (some c, vnode) h =>
    some ⟨(h, (s.vnode.moreSpace n).elim s.heap.2 fun call => call.live vnode.children s.heap.2), vnode, c :: s.given⟩
  | _, _ => none

theorem take_adds {replies : List (Option Nat)} (fresh : s.heap.1.Fresh noOther replies)
    (taken : s.take replies = some s') : ∃ c, s'.given.head? = some c ∧ s.Adds noOther c s' := by
  unfold take at taken
  split at taken
  next n c vnode h room is =>
    obtain rfl := Option.some.inj taken
    exact ⟨c, rfl, 64, replies, n, vnode, h, fresh, room, is, rfl⟩
  next => cases taken

-- Calls with nothing in between, for which no memory comes from mmap.
def takeMore : Nat → ChildUse → Option ChildUse
  | 0, s => some s
  | more + 1, s => if s.given.length ≤ 4 then (s.take []).bind (takeMore more) else none

theorem takeMore_run {s₀ : ChildUse} (more : Nat)
    (before : Run (ChildCall.Step noOther) (fun s call => call.Fits noOther s) s₀ s) (taken : takeMore more s = some s') :
    Run (ChildCall.Step noOther) (fun s call => call.Fits noOther s) s₀ s' := by
  induction more generalizing s with
  | zero =>
    obtain rfl := Option.some.inj taken
    exact before
  | succ more ih =>
    rw [takeMore] at taken
    split_ifs at taken with few
    obtain ⟨s₁, first, rest⟩ := Option.bind_eq_some_iff.mp taken
    obtain ⟨c, -, adds⟩ := take_adds (.nil noOther _) first
    exact ih (.next _ _ .add before (fun many => absurd few (Nat.not_le_of_lt many)) ⟨c, adds⟩) rest

/-- The calls of a process, the first of which gets a chunk, and one more. -/
def successive (more : Nat) : Option (ChildUse × ChildUse) :=
  (((noChildren fun _ => 0).take [some firstChunk]).bind (takeMore more)).bind fun s => (s.take []).map (Prod.mk s)

theorem successive_run {more : Nat} (taken : successive more = some (s, s')) :
    Run (ChildCall.Step noOther) (fun s call => call.Fits noOther s) (noChildren fun _ => 0) s ∧
      ∃ c, s'.given.head? = some c ∧ s.Adds noOther c s' := by
  obtain ⟨s₂, before, last⟩ := Option.bind_eq_some_iff.mp taken
  obtain ⟨s₁, first, rest⟩ := Option.bind_eq_some_iff.mp before
  obtain ⟨s₃, one, is⟩ := Option.map_eq_some_iff.mp last
  obtain ⟨rfl, rfl⟩ := Prod.mk.inj is
  obtain ⟨c, -, adds⟩ := take_adds (firstChunk_fresh fun _ => 0) first
  exact ⟨takeMore_run more (.next _ _ .add .start (fun many => absurd many (by decide)) ⟨c, adds⟩) rest,
    take_adds (.nil noOther _) one⟩

/-- The fourth child. -/
theorem addKeeps_fourth : ∃ (s : ChildUse) (c : Nat) (s' : ChildUse), c = firstChunk + blockSize + 3 * vnodeSize ∧ s'.given.length = 4 ∧
    s.Adds noOther c s' ∧ s.AddKeeps c s' := by
  have seen : (successive 2).map (fun x => (x.2.given.head?, x.1.given.length, x.2.given.length)) =
      some (some (firstChunk + blockSize + 3 * vnodeSize), 3, 4) := by decide +kernel
  obtain ⟨⟨s, s'⟩, taken, is⟩ := Option.map_eq_some_iff.mp seen
  obtain ⟨last, lengths⟩ := Prod.mk.inj is
  obtain ⟨before, after⟩ := Prod.mk.inj lengths
  obtain ⟨run, c, head, adds⟩ := successive_run taken
  obtain rfl := Option.some.inj (head.symm.trans last)
  exact ⟨s, _, s', rfl, after, adds, (addKeeps_iff (fun _ => 0) run adds).mpr (before ▸ by decide)⟩

/-- The fifth child begins where the memory for the children ends. -/
theorem fifth_child_outside : ∃ s c s', Run (ChildCall.Step noOther) (fun s call => call.Fits noOther s)
    (noChildren fun _ => 0) s ∧ s.given.length = 4 ∧ s.Adds noOther c s' ∧
    s'.heap.2 = [(firstChunk + blockSize, 4 * vnodeSize)] ∧ c = firstChunk + blockSize + 4 * vnodeSize ∧
    ¬s.AddKeeps c s' := by
  have seen : (successive 3).map (fun x => (x.2.given.head?, x.1.given.length, x.2.heap.2)) =
      some (some (firstChunk + blockSize + 4 * vnodeSize), 4, [(firstChunk + blockSize, 4 * vnodeSize)]) := by
    decide +kernel
  obtain ⟨⟨s, s'⟩, taken, is⟩ := Option.map_eq_some_iff.mp seen
  obtain ⟨last, rest⟩ := Prod.mk.inj is
  obtain ⟨before, live⟩ := Prod.mk.inj rest
  obtain ⟨run, c, head, adds⟩ := successive_run taken
  obtain rfl := Option.some.inj (head.symm.trans last)
  refine ⟨s, _, s', run, before, adds, live, rfl, fun keeps => ?_⟩
  obtain ⟨x, member, -, -, high⟩ := keeps.inside
  obtain rfl := List.mem_singleton.mp (live ▸ member)
  exact absurd high (by decide)

end ChildUse

end Anthill
