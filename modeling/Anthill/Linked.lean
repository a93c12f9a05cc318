import Mathlib.Data.List.Basic
import Mathlib.Data.Set.Insert
import Mathlib.Logic.Function.Basic

set_option autoImplicit false

namespace LinkedList

variable {α : Type}

structure Node (α : Type) where
  data : α
  next : Nat

/-- Nodes by address. One that is not there was never allocated or has been freed. -/
abbrev Nodes (α : Type) := Nat → Option (Node α)

-- The first node from `p` on whose data hits, and the node before it.
def find (m : Nodes α) (hit : α → Bool) : Nat → Nat → Nat → Option (Nat × Nat)
  | 0, _, _ => none
  | fuel + 1, p, prev =>
    if p = 0 then some (0, prev)
    else (m p).bind fun node => if hit node.data then some (p, prev) else find m hit fuel node.next p

def last (m : Nodes α) : Nat → Nat → Option Nat
  | 0, _ => none
  | fuel + 1, p => (m p).bind fun node => if node.next = 0 then some p else last m fuel node.next

def setNext (m : Nodes α) (p next : Nat) : Option (Nodes α) :=
  (m p).map fun node => Function.update m p (some { node with next := next })

def setData (m : Nodes α) (p : Nat) (data : α → α) : Option (Nodes α) :=
  (m p).map fun node => Function.update m p (some { node with data := data node.data })

def free (m : Nodes α) (p : Nat) : Nodes α := Function.update m p none

/-- The nodes that lead from `p` to `q`, each with its address. -/
def Seg (m : Nodes α) (q : Nat) : Nat → List (Nat × α) → Prop
  | p, [] => p = q
  | p, e :: l => p = e.1 ∧ e.1 ≠ 0 ∧ ∃ next, m e.1 = some ⟨e.2, next⟩ ∧ Seg m q next l

-- What find comes to in the nodes of a list.
def search (hit : α → Bool) : List (Nat × α) → Nat → Nat × Nat
  | [], prev => (0, prev)
  | e :: l, prev => if hit e.2 then (e.1, prev) else search hit l e.1

section Seg

variable {m m' : Nodes α} {p q : Nat}

theorem Seg.append {l₁ l₂ : List (Nat × α)} :
    Seg m q p (l₁ ++ l₂) ↔ ∃ r, Seg m r p l₁ ∧ Seg m q r l₂ := by
  induction l₁ generalizing p with
  | nil => exact ⟨fun seg => ⟨p, rfl, seg⟩, fun ⟨r, same, seg⟩ => same ▸ seg⟩
  | cons e l ih =>
    constructor
    · rintro ⟨here, nonnull, next, node, rest⟩
      obtain ⟨r, first, second⟩ := ih.mp rest
      exact ⟨r, ⟨here, nonnull, next, node, first⟩, second⟩
    · rintro ⟨r, ⟨here, nonnull, next, node, first⟩, second⟩
      exact ⟨here, nonnull, next, node, ih.mpr ⟨r, first, second⟩⟩

theorem Seg.live {l : List (Nat × α)} (seg : Seg m q p l) (e : Nat × α) (member : e ∈ l) :
    e.1 ≠ 0 ∧ ∃ next, m e.1 = some ⟨e.2, next⟩ := by
  induction l generalizing p with
  | nil => cases member
  | cons e' l ih =>
    obtain ⟨-, nonnull, next, node, rest⟩ := seg
    rcases List.mem_cons.mp member with rfl | later
    · exact ⟨nonnull, next, node⟩
    · exact ih rest later

/-- Only the nodes of a list matter to it. -/
theorem Seg.frame {l : List (Nat × α)} (seg : Seg m q p l) (same : ∀ e, e ∈ l → m' e.1 = m e.1) : Seg m' q p l := by
  induction l generalizing p with
  | nil => exact seg
  | cons e l ih =>
    obtain ⟨here, nonnull, next, node, rest⟩ := seg
    exact ⟨here, nonnull, next, (same e (List.mem_cons_self ..)).trans node,
      ih rest fun e member => same e (List.mem_cons_of_mem _ member)⟩

theorem Seg.unique {l l' : List (Nat × α)} (seg : Seg m 0 p l) (seg' : Seg m 0 p l') : l = l' := by
  induction l generalizing p l' with
  | nil =>
    cases l' with
    | nil => rfl
    | cons e l' => exact absurd (seg'.1.symm.trans seg) seg'.2.1
  | cons e l ih =>
    cases l' with
    | nil => exact absurd (seg.1.symm.trans seg') seg.2.1
    | cons e' l' =>
      obtain ⟨here, _, next, node, rest⟩ := seg
      obtain ⟨here', _, next', node', rest'⟩ := seg'
      obtain ⟨a, x⟩ := e
      obtain ⟨a', x'⟩ := e'
      obtain rfl : a = a' := here.symm.trans here'
      obtain ⟨rfl, rfl⟩ := Node.mk.inj (Option.some.inj (node.symm.trans node'))
      rw [ih rest rest']

/-- A list that ends has no node twice. -/
theorem Seg.nodup {l : List (Nat × α)} (seg : Seg m 0 p l) : (l.map Prod.fst).Nodup := by
  induction l generalizing p with
  | nil => exact List.nodup_nil
  | cons e l ih =>
    have whole := seg
    obtain ⟨here, nonnull, next, node, rest⟩ := seg
    refine List.nodup_cons.mpr ⟨fun again => ?_, ih rest⟩
    obtain ⟨e', member, same⟩ := List.mem_map.mp again
    obtain ⟨l₁, l₂, rfl⟩ := List.append_of_mem member
    obtain ⟨r, -, second⟩ := Seg.append.mp rest
    have start : r = p := by rw [second.1, same, here]
    have longer := congrArg List.length (Seg.unique whole (start ▸ second))
    simp only [List.length_cons, List.length_append] at longer
    omega

theorem find_seg (hit : α → Bool) (l : List (Nat × α)) (fuel prev : Nat) (enough : l.length < fuel)
    (seg : Seg m 0 p l) : find m hit fuel p prev = some (search hit l prev) := by
  induction l generalizing p prev fuel with
  | nil =>
    obtain ⟨fuel, rfl⟩ : ∃ n, fuel = n + 1 := ⟨fuel - 1, by omega⟩
    exact if_pos seg
  | cons e l ih =>
    rw [List.length_cons] at enough
    obtain ⟨fuel, rfl⟩ : ∃ n, fuel = n + 1 := ⟨fuel - 1, by omega⟩
    obtain ⟨rfl, nonnull, next, node, rest⟩ := seg
    rw [find, if_neg nonnull, node, Option.bind_some, search]
    split_ifs with found
    · rfl
    · exact ih fuel e.1 (by omega) rest

theorem last_seg (l : List (Nat × α)) (e : Nat × α) (fuel : Nat) (enough : l.length < fuel)
    (seg : Seg m 0 p (l ++ [e])) : last m fuel p = some e.1 := by
  induction l generalizing p fuel with
  | nil =>
    obtain ⟨fuel, rfl⟩ : ∃ n, fuel = n + 1 := ⟨fuel - 1, by omega⟩
    obtain ⟨rfl, -, next, node, rfl⟩ := seg
    rw [last, node, Option.bind_some, if_pos rfl]
  | cons e' l ih =>
    rw [List.length_cons] at enough
    obtain ⟨fuel, rfl⟩ : ∃ n, fuel = n + 1 := ⟨fuel - 1, by omega⟩
    obtain ⟨rfl, -, next, node, rest⟩ := seg
    have more : next ≠ 0 := by
      obtain ⟨r, first, second⟩ := Seg.append.mp rest
      cases l with
      | nil => exact fun none => second.2.1 (second.1.symm.trans (first.symm.trans none))
      | cons e'' l => exact fun none => first.2.1 (first.1.symm.trans none)
    rw [last, node, Option.bind_some, if_neg more]
    exact ih fuel (by omega) rest

end Seg

section Search

variable (hit : α → Bool)

theorem search_none (l : List (Nat × α)) (prev : Nat) (none : ∀ e, e ∈ l → hit e.2 = false) :
    (search hit l prev).1 = 0 := by
  induction l generalizing prev with
  | nil => rfl
  | cons e l ih =>
    rw [search, none e (List.mem_cons_self ..), if_neg Bool.false_ne_true]
    exact ih e.1 fun e' member => none e' (List.mem_cons_of_mem _ member)

theorem search_first (l₁ l₂ : List (Nat × α)) (e : Nat × α) (prev : Nat) (before : ∀ e', e' ∈ l₁ → hit e'.2 = false)
    (hits : hit e.2 = true) : (search hit (l₁ ++ e :: l₂) prev).1 = e.1 := by
  induction l₁ generalizing prev with
  | nil => rw [List.nil_append, search, if_pos hits]
  | cons e' l ih =>
    rw [List.cons_append, search, before e' (List.mem_cons_self ..), if_neg Bool.false_ne_true]
    exact ih e'.1 fun e'' member => before e'' (List.mem_cons_of_mem _ member)

theorem search_after (l₁ l₂ : List (Nat × α)) (e₁ e : Nat × α) (prev : Nat)
    (before : ∀ e', e' ∈ l₁ ++ [e₁] → hit e'.2 = false) (hits : hit e.2 = true) :
    search hit (l₁ ++ e₁ :: e :: l₂) prev = (e.1, e₁.1) := by
  induction l₁ generalizing prev with
  | nil =>
    rw [List.nil_append, search, before e₁ (List.mem_singleton_self _), if_neg Bool.false_ne_true, search, if_pos hits]
  | cons e' l ih =>
    rw [List.cons_append, search, before e' (List.mem_cons_self ..), if_neg Bool.false_ne_true]
    exact ih e'.1 fun e'' member => before e'' (List.mem_cons_of_mem _ member)

end Search

section Updates

variable {m : Nodes α} {p : Nat}

theorem Seg.update_away {q a : Nat} {l : List (Nat × α)} (seg : Seg m q p l) (node : Option (Node α))
    (away : a ∉ l.map Prod.fst) : Seg (Function.update m a node) q p l :=
  seg.frame fun e member => Function.update_of_ne (by
    rintro rfl
    exact away (List.mem_map_of_mem member)) _ _

-- The addresses of a list around one of its nodes.
theorem Seg.split_nodup {l₁ l₂ : List (Nat × α)} {e : Nat × α} (seg : Seg m 0 p (l₁ ++ e :: l₂)) :
    e.1 ∉ l₁.map Prod.fst ∧ e.1 ∉ l₂.map Prod.fst := by
  have nodup := seg.nodup
  rw [List.map_append, List.map_cons, List.nodup_append] at nodup
  obtain ⟨-, after, apart⟩ := nodup
  exact ⟨fun member => apart _ member _ (List.mem_cons_self ..) rfl, (List.nodup_cons.mp after).1⟩

/-- A new node behind the last. -/
theorem Seg.snoc {l : List (Nat × α)} {e : Nat × α} (seg : Seg m 0 p (l ++ [e])) (a : Nat) (x : α) (nonnull' : a ≠ 0)
    (fresh : m a = none) : ∃ m', setNext (Function.update m a (some ⟨x, 0⟩)) e.1 a = some m' ∧
      Seg m' 0 p (l ++ [e] ++ [(a, x)]) ∧ ∀ b, b ≠ a → b ≠ e.1 → m' b = m b := by
  have unused (e' : Nat × α) (member : e' ∈ l ++ [e]) : e'.1 ≠ a := by
    rintro rfl
    obtain ⟨-, next, node⟩ := seg.live e' member
    rw [fresh] at node
    cases node
  have before := seg.split_nodup.1
  obtain ⟨r, first, rfl, nonnull, next, node, rfl⟩ := Seg.append.mp seg
  have other : e.1 ≠ a := unused e (by simp)
  have there : Function.update m a (some ⟨x, 0⟩) e.1 = some ⟨e.2, 0⟩ := by rw [Function.update_of_ne other, node]
  refine ⟨_, by rw [setNext, there, Option.map_some], ?_, fun b notA notE => ?_⟩
  · rw [List.append_assoc]
    refine Seg.append.mpr ⟨e.1, (first.update_away _ fun member => ?_).update_away _ before, rfl, nonnull, a, ?_, rfl, nonnull',
      0, ?_, rfl⟩
    · obtain ⟨e', member, same⟩ := List.mem_map.mp member
      exact unused e' (List.mem_append_left _ member) same
    · rw [Function.update_self]
    · rw [Function.update_of_ne other.symm, Function.update_self]
  · rw [Function.update_of_ne notE, Function.update_of_ne notA]

/-- A node that is not the first leaves the list. -/
theorem Seg.remove {l₁ l₂ : List (Nat × α)} {prev e : Nat × α} (seg : Seg m 0 p (l₁ ++ prev :: e :: l₂)) (f : α → α) :
    ∃ next m₁ m₂, m e.1 = some ⟨e.2, next⟩ ∧ setNext m prev.1 next = some m₁ ∧ setData m₁ e.1 f = some m₂ ∧
      Seg (free m₂ e.1) 0 p (l₁ ++ prev :: l₂) ∧ ∀ b, b ≠ prev.1 → b ≠ e.1 → free m₂ e.1 b = m b := by
  have around := seg.split_nodup
  have rest' : Seg m 0 p ((l₁ ++ [prev]) ++ e :: l₂) := by rwa [List.append_assoc]
  have aroundE := rest'.split_nodup
  obtain ⟨r, first, rfl, nonnull, next, node, rfl, -, nextE, nodeE, last⟩ := Seg.append.mp seg
  have other : e.1 ≠ prev.1 := fun same => around.2 (same ▸ List.mem_cons_self ..)
  have there : Function.update m prev.1 (some ⟨prev.2, nextE⟩) e.1 = some ⟨e.2, nextE⟩ := by
    rw [Function.update_of_ne other, nodeE]
  refine ⟨nextE, _, _, nodeE, by rw [setNext, node, Option.map_some], by rw [setData, there, Option.map_some], ?_,
    fun b notPrev notE => ?_⟩
  · have notFirst : e.1 ∉ l₁.map Prod.fst := fun member => aroundE.1 (by
      rw [List.map_append]
      exact List.mem_append_left _ member)
    have notLast : prev.1 ∉ l₂.map Prod.fst := fun member => around.2 (List.mem_cons_of_mem _ member)
    rw [free]
    refine Seg.append.mpr ⟨prev.1, ?_, rfl, nonnull, nextE, ?_, ?_⟩
    · exact ((first.update_away _ around.1).update_away _ notFirst).update_away _ notFirst
    · rw [Function.update_of_ne other.symm, Function.update_of_ne other.symm, Function.update_self]
    · exact ((last.update_away _ notLast).update_away _ aroundE.2).update_away _ aroundE.2
  · rw [free, Function.update_of_ne notE, Function.update_of_ne notE, Function.update_of_ne notPrev]

/-- A node with other data. -/
theorem Seg.update {l₁ l₂ : List (Nat × α)} {e : Nat × α} (seg : Seg m 0 p (l₁ ++ e :: l₂)) (f : α → α) :
    ∃ m', setData m e.1 f = some m' ∧ Seg m' 0 p (l₁ ++ (e.1, f e.2) :: l₂) ∧ ∀ b, b ≠ e.1 → m' b = m b := by
  have around := seg.split_nodup
  obtain ⟨r, first, rfl, nonnull, next, node, rest⟩ := Seg.append.mp seg
  refine ⟨_, by rw [setData, node, Option.map_some], ?_, fun b other => Function.update_of_ne other _ _⟩
  exact Seg.append.mpr ⟨e.1, first.update_away _ around.1, rfl, nonnull, next, Function.update_self ..,
    rest.update_away _ around.2⟩

end Updates

section Path

/-- The nodes that lead from `p` to `q` where each node has but a link. -/
def Path (next : Nat → Nat) (q p : Nat) (l : List Nat) : Prop :=
  Seg (fun a => some ⟨(), next a⟩) q p (l.map fun a => (a, ()))

variable {next next' : Nat → Nat} {p q : Nat}

theorem Path.nil : Path next q p [] ↔ p = q := Iff.rfl

theorem Path.cons {a : Nat} {l : List Nat} : Path next q p (a :: l) ↔ p = a ∧ a ≠ 0 ∧ Path next q (next a) l := by
  constructor
  · rintro ⟨here, nonnull, r, node, rest⟩
    obtain rfl : next a = r := congrArg Node.next (Option.some.inj node)
    exact ⟨here, nonnull, rest⟩
  · rintro ⟨here, nonnull, rest⟩
    exact ⟨here, nonnull, next a, rfl, rest⟩

theorem Path.append {l₁ l₂ : List Nat} :
    Path next q p (l₁ ++ l₂) ↔ ∃ r, Path next r p l₁ ∧ Path next q r l₂ := by
  rw [Path, List.map_append]
  exact Seg.append

theorem Path.unique {l l' : List Nat} (path : Path next 0 p l) (path' : Path next 0 p l') : l = l' :=
  List.map_injective_iff.mpr (fun _ _ same => congrArg Prod.fst same) (Seg.unique path path')

theorem Path.nodup {l : List Nat} (path : Path next 0 p l) : l.Nodup := by
  have nodup := Seg.nodup path
  rwa [List.map_map, show Prod.fst ∘ (fun a : Nat => (a, ())) = id from rfl, List.map_id] at nodup

theorem Path.frame {l : List Nat} (path : Path next q p l) (same : ∀ a, a ∈ l → next' a = next a) :
    Path next' q p l := by
  refine Seg.frame path fun e member => ?_
  obtain ⟨a, inside, rfl⟩ := List.mem_map.mp member
  rw [same a inside]

/-- The list from `p` ends and has these nodes. -/
def Listing (next : Nat → Nat) (p : Nat) (nodes : Set Nat) : Prop := ∃ l, Path next 0 p l ∧ ∀ a, a ∈ l ↔ a ∈ nodes

theorem Listing.empty : Listing next 0 ∅ := ⟨[], rfl, fun _ => ⟨fun member => absurd member List.not_mem_nil, False.elim⟩⟩

variable {nodes : Set Nat} (listing : Listing next p nodes)

include listing

theorem Listing.ne_zero {a : Nat} (member : a ∈ nodes) : a ≠ 0 := by
  obtain ⟨l, path, all⟩ := listing
  exact (Seg.live path _ (List.mem_map_of_mem ((all a).mpr member))).1

-- The nodes around one of them.
theorem Listing.around {a : Nat} (member : a ∈ nodes) : ∃ l₁ l₂, Path next a p l₁ ∧ Path next 0 (next a) l₂ ∧
    (∀ b, b ∈ l₁ ++ a :: l₂ ↔ b ∈ nodes) ∧ a ∉ l₁ ∧ a ∉ l₂ := by
  obtain ⟨l, path, all⟩ := listing
  obtain ⟨l₁, l₂, rfl⟩ := List.append_of_mem ((all a).mpr member)
  have nodup := path.nodup
  rw [List.nodup_append] at nodup
  obtain ⟨r, first, second⟩ := Path.append.mp path
  obtain ⟨rfl, -, rest⟩ := Path.cons.mp second
  exact ⟨l₁, l₂, first, rest, all, fun again => nodup.2.2 r again r (List.mem_cons_self ..) rfl,
    (List.nodup_cons.mp nodup.2.1).1⟩

theorem Listing.next_mem {a : Nat} (member : a ∈ nodes) : next a = 0 ∨ next a ∈ nodes := by
  obtain ⟨l₁, l₂, -, rest, all, -, -⟩ := listing.around member
  cases l₂ with
  | nil => exact .inl rest
  | cons b l₂ =>
    obtain ⟨is, -, -⟩ := Path.cons.mp rest
    exact .inr (is ▸ (all b).mp (by simp))

/-- Two nodes stand one behind the other where the first leads to the second. -/
theorem Listing.follows {a b : Nat} :
    (∃ l₁ l₂, Path next 0 p (l₁ ++ a :: b :: l₂)) ↔ a ∈ nodes ∧ next a = b ∧ b ≠ 0 := by
  constructor
  · rintro ⟨l₁, l₂, path⟩
    obtain ⟨l, path', all⟩ := listing
    have member : a ∈ nodes := (all a).mp (by rw [path'.unique path]; simp)
    obtain ⟨r, -, rest⟩ := Path.append.mp path
    obtain ⟨rfl, -, rest⟩ := Path.cons.mp rest
    obtain ⟨link, nonnull, -⟩ := Path.cons.mp rest
    exact ⟨member, link, nonnull⟩
  · rintro ⟨member, rfl, nonnull⟩
    obtain ⟨l₁, l₂, before, after, -⟩ := listing.around member
    have here := listing.ne_zero member
    cases l₂ with
    | nil => exact absurd after nonnull
    | cons c l₂ =>
      obtain ⟨rfl, -, -⟩ := Path.cons.mp after
      exact ⟨l₁, l₂, Path.append.mpr ⟨a, before, Path.cons.mpr ⟨rfl, here, after⟩⟩⟩

/-- A list that ends does not come back to a node. -/
theorem Listing.acyclic {a : Nat} {l : List Nat} (member : a ∈ nodes) (path : Path next a a l) : l = [] := by
  obtain ⟨l₁, l₂, -, rest, -, -, -⟩ := listing.around member
  have ends : Path next 0 a (a :: l₂) := Path.cons.mpr ⟨rfl, listing.ne_zero member, rest⟩
  have same := Path.unique ends (Path.append.mpr ⟨a, path, ends⟩)
  have long := congrArg List.length same
  rw [List.length_append] at long
  exact List.length_eq_zero_iff.mp (by omega)

theorem Listing.frame (same : ∀ a, a ∈ nodes → next' a = next a) : Listing next' p nodes := by
  obtain ⟨l, path, all⟩ := listing
  exact ⟨l, path.frame fun a member => same a ((all a).mp member), all⟩

/-- A new node behind one of them. -/
theorem Listing.insert {a b : Nat} (member : a ∈ nodes) (nonnull : b ≠ 0) (link : next' a = b)
    (rest : next' b = next a) (same : ∀ c, c ∈ nodes → c ≠ a → next' c = next c) :
    Listing next' p (insert b nodes) := by
  obtain ⟨l₁, l₂, first, last, all, notBefore, notAfter⟩ := listing.around member
  refine ⟨l₁ ++ a :: b :: l₂, ?_, fun c => ?_⟩
  · refine Path.append.mpr ⟨a, first.frame fun c inside => ?_, Path.cons.mpr ⟨rfl, listing.ne_zero member, ?_⟩⟩
    · exact same c ((all c).mp (List.mem_append_left _ inside)) fun is => notBefore (is ▸ inside)
    · refine Path.cons.mpr ⟨link, nonnull, ?_⟩
      rw [rest]
      exact last.frame fun c inside => same c ((all c).mp (by simp [inside])) fun is => notAfter (is ▸ inside)
  · rw [Set.mem_insert_iff, ← all c]
    simp only [List.mem_append, List.mem_cons]
    tauto

/-- The node behind one of them leaves. -/
theorem Listing.skip {a b : Nat} (member : a ∈ nodes) (link : next a = b) (nonnull : b ≠ 0) (now : next' a = next b)
    (same : ∀ c, c ∈ nodes → c ≠ a → c ≠ b → next' c = next c) : Listing next' p (nodes \ {b}) := by
  obtain ⟨l₁, l₂, first, last, all, notBefore, notAfter⟩ := listing.around member
  cases l₂ with
  | nil => exact absurd (link.symm.trans last) nonnull
  | cons c l₂ =>
    obtain ⟨is, -, tail⟩ := Path.cons.mp last
    obtain rfl : b = c := link.symm.trans is
    have nodup : (l₁ ++ a :: b :: l₂).Nodup := (Path.append.mpr ⟨a, first,
      Path.cons.mpr ⟨rfl, listing.ne_zero member, last⟩⟩ : Path next 0 p _).nodup
    simp only [List.nodup_append, List.nodup_cons, List.mem_cons, not_or] at nodup
    obtain ⟨-, ⟨notA, notB, -⟩, apart⟩ := nodup
    refine ⟨l₁ ++ a :: l₂, ?_, fun c => ?_⟩
    · refine Path.append.mpr ⟨a, first.frame fun c inside => ?_, Path.cons.mpr ⟨rfl, listing.ne_zero member, ?_⟩⟩
      · exact same c ((all c).mp (List.mem_append_left _ inside)) (apart c inside a (.inl rfl))
          (apart c inside b (.inr (.inl rfl)))
      · rw [now]
        exact tail.frame fun c inside => same c ((all c).mp (by simp [inside])) (fun is => notA.2 (is ▸ inside))
          fun is => notB (is ▸ inside)
    · rw [Set.mem_sdiff, ← all c, Set.mem_singleton_iff]
      simp only [List.mem_append, List.mem_cons]
      constructor
      · rintro (inside | rfl | inside)
        · exact ⟨.inl inside, apart c inside b (.inr (.inl rfl))⟩
        · exact ⟨.inr (.inl rfl), fun is => notA.1 is⟩
        · exact ⟨.inr (.inr (.inr inside)), fun is => notB (is ▸ inside)⟩
      · rintro ⟨inside | rfl | rfl | inside, other⟩
        · exact .inl inside
        · exact .inr (.inl rfl)
        · exact absurd rfl other
        · exact .inr (.inr inside)

end Path

end LinkedList
