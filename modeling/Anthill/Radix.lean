import Mathlib.Logic.Function.Basic
import Mathlib.Data.List.Induction
import Mathlib.Tactic.Push
import Mathlib.Tactic.Tauto
import Mathlib.Tactic.ByContra

set_option autoImplicit false

namespace Radix

variable {P I E : Type}

-- Trees are roots into one heap of table pages, so two trees may share a page.
abbrev Heap (P I E : Type) := P → I → E

def put [DecidableEq P] [DecidableEq I] (h : Heap P I E) (p : P) (i : I) (e : E) : Heap P I E :=
  fun p' i' => if p' = p ∧ i' = i then e else h p' i'

def putPage [DecidableEq P] (h : Heap P I E) (p : P) (row : I → E) : Heap P I E :=
  fun p' => if p' = p then row else h p'

section Writes

variable [DecidableEq P] [DecidableEq I]

@[simp] theorem put_same (h : Heap P I E) (p : P) (i : I) (e : E) : put h p i e p i = e := by
  simp [put]

theorem put_other (h : Heap P I E) (p p' : P) (i i' : I) (e : E) (away : p' ≠ p ∨ i' ≠ i) :
    put h p i e p' i' = h p' i' := by
  have different : ¬ (p' = p ∧ i' = i) := by tauto
  simp [put, different]

@[simp] theorem put_put (h : Heap P I E) (p : P) (i : I) (e e' : E) :
    put (put h p i e) p i e' = put h p i e' := by
  funext p' i'
  by_cases here : p' = p ∧ i' = i <;> simp [put, here]

@[simp] theorem put_self (h : Heap P I E) (p : P) (i : I) : put h p i (h p i) = h := by
  funext p' i'
  by_cases here : p' = p ∧ i' = i
  · simp [put, here]
  · simp [put, here]

theorem put_page_other (h : Heap P I E) (p p' : P) (i : I) (e : E) (away : p' ≠ p) :
    put h p i e p' = h p' := by
  funext j
  exact put_other h p p' i j e (.inl away)

omit [DecidableEq I] in
@[simp] theorem putPage_same (h : Heap P I E) (p : P) (row : I → E) : putPage h p row p = row := by
  simp [putPage]

omit [DecidableEq I] in
theorem putPage_other (h : Heap P I E) (p p' : P) (row : I → E) (away : p' ≠ p) :
    putPage h p row p' = h p' := by
  simp [putPage, away]

end Writes

/-- `f` was applied once to each entry of `S` and nothing else was written. -/
structure Touched (f : E → E) (S : P → I → Prop) (h h' : Heap P I E) : Prop where
  inside : ∀ p i, S p i → h' p i = f (h p i)
  outside : ∀ p i, ¬ S p i → h' p i = h p i

theorem Touched.nothing (f : E → E) (h : Heap P I E) : Touched f (fun _ _ => False) h h :=
  ⟨fun _ _ impossible => impossible.elim, fun _ _ _ => rfl⟩

theorem Touched.one [DecidableEq P] [DecidableEq I] (f : E → E) (h : Heap P I E) (p : P) (i : I) :
    Touched f (fun p' i' => p' = p ∧ i' = i) h (put h p i (f (h p i))) where
  inside := by
    rintro p' i' ⟨rfl, rfl⟩
    exact put_same _ _ _ _
  outside p' i' away := by
    exact put_other _ _ _ _ _ _ (not_and_or.mp away)

theorem Touched.trans {f : E → E} {S S' : P → I → Prop} {h h' h'' : Heap P I E}
    (first : Touched f S h h') (second : Touched f S' h' h'')
    (apart : ∀ p i, S p i → ¬ S' p i) : Touched f (fun p i => S p i ∨ S' p i) h h'' where
  inside p i either := by
    rcases either with old | new
    · rw [second.outside p i (apart p i old), first.inside p i old]
    · rw [second.inside p i new, first.outside p i fun old => apart p i old new]
  outside p i neither := by
    rw [second.outside p i fun new => neither (.inr new),
      first.outside p i fun old => neither (.inl old)]

theorem Touched.congr {f : E → E} {S S' : P → I → Prop} {h h' : Heap P I E}
    (touched : Touched f S h h') (same : ∀ p i, S' p i ↔ S p i) : Touched f S' h h' where
  inside p i inside := touched.inside p i ((same p i).mp inside)
  outside p i outside := touched.outside p i fun inside => outside ((same p i).mpr inside)

-- A loop whose rounds touch disjoint sets of entries touches each entry of their union once.
theorem Touched.foldl {A : Type} (f : E → E) (S : A → P → I → Prop)
    (step : Heap P I E → A → Heap P I E) (h : Heap P I E) (rounds : List A)
    (distinct : rounds.Nodup)
    (apart : ∀ a b p i, a ≠ b → S a p i → ¬ S b p i)
    (round : ∀ a T h', Touched f T h h' → (∀ p i, T p i → ¬ S a p i) →
      Touched f (S a) h' (step h' a)) :
    Touched f (fun p i => ∃ a, a ∈ rounds ∧ S a p i) h (rounds.foldl step h) := by
  have all (done rest : List A) (h' : Heap P I E) (nodup : (done ++ rest).Nodup)
      (before : Touched f (fun p i => ∃ a, a ∈ done ∧ S a p i) h h') :
      Touched f (fun p i => ∃ a, a ∈ done ++ rest ∧ S a p i) h (rest.foldl step h') := by
    induction rest generalizing done h' with
    | nil => simpa using before
    | cons a rest ih =>
      have fresh : ∀ p i, (∃ b, b ∈ done ∧ S b p i) → ¬ S a p i := by
        rintro p i ⟨b, member, inside⟩ again
        refine apart b a p i ?_ inside again
        rintro rfl
        exact (List.nodup_append.mp nodup).2.2 b member b List.mem_cons_self rfl
      have next : Touched f (fun p i => ∃ b, b ∈ done ++ [a] ∧ S b p i) h (step h' a) :=
        (before.trans (round a _ h' before fresh) fresh).congr (by
          intro p i
          simp only [List.mem_append, List.mem_singleton, or_and_right, exists_or, exists_eq_left])
      have whole := ih (done ++ [a]) (step h' a) (by simpa using nodup) next
      simpa using whole
  exact all [] rounds h (by simpa using distinct) ((Touched.nothing f h).congr (by simp))

-- The page reached from a table page by a list of indices.
def node (nav : E → Option P) (h : Heap P I E) : P → List I → Option P
  | p, [] => some p
  | p, i :: q =>
    match nav (h p i) with
    | none => none
    | some c => node nav h c q

@[simp] theorem node_nil (nav : E → Option P) (h : Heap P I E) (p : P) :
    node nav h p [] = some p := rfl

theorem node_cons (nav : E → Option P) (h : Heap P I E) (p : P) (i : I) (q : List I) :
    node nav h p (i :: q) = (nav (h p i)).bind (fun c => node nav h c q) := by
  cases found : nav (h p i) <;> simp [node, found]

theorem node_append (nav : E → Option P) (h : Heap P I E) (p : P) (q r : List I) :
    node nav h p (q ++ r) = (node nav h p q).bind (fun c => node nav h c r) := by
  induction q generalizing p with
  | nil => rfl
  | cons i q ih =>
    simp only [List.cons_append, node_cons]
    cases nav (h p i) with
    | none => rfl
    | some c => exact ih c

theorem node_concat (nav : E → Option P) (h : Heap P I E) (p : P) (q : List I) (i : I) :
    node nav h p (q ++ [i]) = (node nav h p q).bind (fun c => nav (h c i)) := by
  rw [node_append]
  congr 1
  funext c
  rw [node_cons]
  cases nav (h c i) <;> rfl

theorem node_concat_some (nav : E → Option P) (h : Heap P I E) (p a : P) (q : List I) (i : I)
    (here : node nav h p q = some a) : node nav h p (q ++ [i]) = nav (h a i) := by
  rw [node_concat, here]
  rfl

theorem node_prefix_some (nav : E → Option P) (h : Heap P I E) (p c : P) (q r : List I)
    (found : node nav h p (q ++ r) = some c) : ∃ a, node nav h p q = some a := by
  rw [node_append] at found
  cases here : node nav h p q with
  | none => simp [here] at found
  | some a => exact ⟨a, rfl⟩

theorem node_congr (nav : E → Option P) (h h' : Heap P I E)
    (same : ∀ p i, nav (h' p i) = nav (h p i)) (p : P) (q : List I) :
    node nav h' p q = node nav h p q := by
  induction q generalizing p with
  | nil => rfl
  | cons i q ih =>
    rw [node_cons, node_cons, same]
    cases nav (h p i) with
    | none => rfl
    | some c => exact ih c

-- A walk reads only the entries that it comes through.
theorem node_congr_read (nav : E → Option P) (h h' : Heap P I E) (t : P) (q : List I)
    (same : ∀ q₁ i q₂ p, q = q₁ ++ i :: q₂ → node nav h t q₁ = some p → nav (h' p i) = nav (h p i)) :
    node nav h' t q = node nav h t q := by
  induction q generalizing t with
  | nil => rfl
  | cons i q ih =>
    rw [node_cons, node_cons, same [] i q t rfl rfl]
    cases found : nav (h t i) with
    | none => rfl
    | some c =>
      refine ih c fun q₁ j q₂ p split there => same (i :: q₁) j q₂ p (by rw [split]; rfl) ?_
      rw [node_cons, found]
      exact there

-- A walk reads only the pages that it comes through.
theorem node_congr_reached (nav : E → Option P) (h h' : Heap P I E) (t : P) (depth : Nat)
    (same : ∀ q p i, q.length ≤ depth → node nav h t q = some p → nav (h' p i) = nav (h p i))
    (q : List I) (short : q.length ≤ depth + 1) : node nav h' t q = node nav h t q := by
  induction q using List.reverseRecOn with
  | nil => rfl
  | append_singleton q i ih =>
    have shorter : q.length ≤ depth := by simpa using short
    rw [node_concat, node_concat, ih (by omega)]
    cases here : node nav h t q with
    | none => rfl
    | some p => exact same q p i shorter here

/-- Every table page has one position, the list of indices that leads to it from any root. -/
structure Typed (nav : E → Option P) (depth : Nat) (h : Heap P I E)
    (pos : P → Option (List I)) : Prop where
  bound : ∀ p q, pos p = some q → q.length ≤ depth
  child : ∀ p q i c, pos p = some q → q.length < depth → nav (h p i) = some c →
    pos c = some (q ++ [i])

variable {nav : E → Option P} {depth : Nat} {h h' : Heap P I E} {pos : P → Option (List I)}

theorem Typed.node_pos (typed : Typed nav depth h pos) (t p : P) (q : List I)
    (root : pos t = some []) (short : q.length ≤ depth) (found : node nav h t q = some p) :
    pos p = some q := by
  induction q using List.reverseRecOn generalizing p with
  | nil =>
    have same : t = p := by simpa using found
    exact same ▸ root
  | append_singleton q i ih =>
    obtain ⟨a, here⟩ := node_prefix_some nav h t p q [i] found
    have deeper : q.length < depth := by
      rw [List.length_append, List.length_singleton] at short
      omega
    have position := ih a (Nat.le_of_lt deeper) here
    rw [node_concat_some nav h t a q i here] at found
    exact typed.child a q i p position deeper found

-- One path reaches a table page, whichever root it is walked from.
theorem Typed.path_unique (typed : Typed nav depth h pos) (t u p : P) (q r : List I)
    (rootT : pos t = some []) (rootU : pos u = some [])
    (shortQ : q.length ≤ depth) (shortR : r.length ≤ depth)
    (foundT : node nav h t q = some p) (foundU : node nav h u r = some p) : q = r := by
  have fromT := typed.node_pos t p q rootT shortQ foundT
  have fromU := typed.node_pos u p r rootU shortR foundU
  exact Option.some.inj (fromT.symm.trans fromU)

theorem Typed.congr (typed : Typed nav depth h pos)
    (same : ∀ p q i, pos p = some q → nav (h' p i) = nav (h p i)) :
    Typed nav depth h' pos where
  bound := typed.bound
  child p q i c position short found :=
    typed.child p q i c position short (by rw [← same p q i position]; exact found)

-- Writing one entry changes only the walks that go through it.
theorem Typed.node_frame (typed : Typed nav depth h pos) (t p₀ : P) (q₀ : List I) (i₀ : I)
    (same : ∀ p q i, pos p = some q → (p ≠ p₀ ∨ i ≠ i₀) → nav (h' p i) = nav (h p i))
    (position : pos p₀ = some q₀) (root : pos t = some []) (q : List I)
    (short : q.length ≤ depth + 1)
    (away : ¬ ((q₀ ++ [i₀]) <+: q ∧ node nav h t q₀ = some p₀)) :
    node nav h' t q = node nav h t q := by
  induction q using List.reverseRecOn with
  | nil => rfl
  | append_singleton q i ih =>
    have shorter : q.length ≤ depth := by simpa using short
    have earlier : node nav h' t q = node nav h t q := by
      apply ih (by omega)
      rintro ⟨before, reached⟩
      exact away ⟨before.trans (List.prefix_append q [i]), reached⟩
    rw [node_concat, node_concat, earlier]
    cases here : node nav h t q with
    | none => rfl
    | some a =>
      have atA := typed.node_pos t a q root shorter here
      have different : a ≠ p₀ ∨ i ≠ i₀ := by
        by_contra both
        push Not at both
        obtain ⟨rfl, rfl⟩ := both
        have samePath : q₀ = q := Option.some.inj (position.symm.trans atA)
        subst samePath
        exact away ⟨List.prefix_refl _, here⟩
      exact same a q i atA different

theorem Typed.node_same (typed : Typed nav depth h pos) (t : P)
    (same : ∀ p q i, pos p = some q → nav (h' p i) = nav (h p i))
    (root : pos t = some []) (q : List I) (short : q.length ≤ depth + 1) :
    node nav h' t q = node nav h t q :=
  node_congr_reached nav h h' t depth (fun q p i shorter here => same p q i (typed.node_pos t p q root shorter here)) q
    short

-- Writes that only fill empty entries never lose a walk.
theorem Typed.node_kept (typed : Typed nav depth h pos) (t c : P)
    (kept : ∀ p q i a, pos p = some q → nav (h p i) = some a → nav (h' p i) = some a)
    (root : pos t = some []) (q : List I) (short : q.length ≤ depth + 1)
    (found : node nav h t q = some c) : node nav h' t q = some c := by
  induction q using List.reverseRecOn generalizing c with
  | nil => exact found
  | append_singleton q i ih =>
    obtain ⟨a, here⟩ := node_prefix_some nav h t c q [i] found
    have shorter : q.length ≤ depth := by simpa using short
    rw [node_concat_some nav h t a q i here] at found
    rw [node_concat_some nav h' t a q i (ih a (by omega) here)]
    exact kept a q i c (typed.node_pos t a q root shorter here) found

section Update

variable [DecidableEq P] [DecidableEq I]

-- Redirecting one entry to a page with the same children moves exactly the walks that end there.
theorem Typed.node_relink (typed : Typed nav depth h pos) (t p₀ v : P) (q₀ : List I) (i₀ : I)
    (position : pos p₀ = some q₀) (here : nav (h' p₀ i₀) = some v)
    (same : ∀ p q i, pos p = some q → (p ≠ p₀ ∨ i ≠ i₀) → nav (h' p i) = nav (h p i))
    (twin : ∀ c j, q₀.length < depth → nav (h p₀ i₀) = some c → nav (h' v j) = nav (h c j))
    (was : (nav (h p₀ i₀)).isSome) (root : pos t = some []) (q : List I)
    (short : q.length ≤ depth + 1) :
    node nav h' t q =
      if q = q₀ ++ [i₀] ∧ node nav h t q₀ = some p₀ then some v else node nav h t q := by
  induction q using List.reverseRecOn with
  | nil => simp
  | append_singleton q i ih =>
    have shorter : q.length ≤ depth := by simpa using short
    rw [node_concat, node_concat, ih (by omega)]
    by_cases moved : q = q₀ ++ [i₀] ∧ node nav h t q₀ = some p₀
    · obtain ⟨rfl, reached⟩ := moved
      obtain ⟨c, old⟩ := Option.isSome_iff_exists.mp was
      have longer : q₀ ++ [i₀] ++ [i] ≠ q₀ ++ [i₀] := by simp
      rw [List.length_append, List.length_singleton] at shorter
      rw [if_pos ⟨rfl, reached⟩, if_neg (fun both => longer both.1),
        node_concat_some nav h t p₀ q₀ i₀ reached, old, Option.bind_some, Option.bind_some]
      exact twin c i (by omega) old
    · rw [if_neg moved]
      cases found : node nav h t q with
      | none =>
        have notHere : ¬ (q ++ [i] = q₀ ++ [i₀] ∧ node nav h t q₀ = some p₀) := by
          rintro ⟨whole, reached⟩
          obtain ⟨rfl, _⟩ := List.append_inj' whole rfl
          rw [found] at reached
          cases reached
        rw [if_neg notHere]
        rfl
      | some p =>
        have atP := typed.node_pos t p q root shorter found
        rw [Option.bind_some, Option.bind_some]
        by_cases entry : p = p₀ ∧ i = i₀
        · obtain ⟨rfl, rfl⟩ := entry
          have samePath : q₀ = q := Option.some.inj (position.symm.trans atP)
          subst samePath
          rw [if_pos ⟨rfl, found⟩, here]
        · have away : p ≠ p₀ ∨ i ≠ i₀ := not_and_or.mp entry
          have notHere : ¬ (q ++ [i] = q₀ ++ [i₀] ∧ node nav h t q₀ = some p₀) := by
            rintro ⟨whole, reached⟩
            obtain ⟨rfl, last⟩ := List.append_inj' whole rfl
            rw [found] at reached
            exact entry ⟨Option.some.inj reached, (List.cons.inj last).1⟩
          rw [same p q i atP away, if_neg notHere]

theorem Typed.put (typed : Typed nav depth h pos) (p : P) (i : I) (e : E)
    (fits : ∀ q c, pos p = some q → q.length < depth → nav e = some c → pos c = some (q ++ [i])) :
    Typed nav depth (put h p i e) pos where
  bound := typed.bound
  child a q j c position short found := by
    by_cases here : a = p ∧ j = i
    · obtain ⟨rfl, rfl⟩ := here
      rw [put_same] at found
      exact fits q c position short found
    · rw [put_other h p a i j e (by tauto)] at found
      exact typed.child a q j c position short found

omit [DecidableEq I] in
theorem extend_cases {p a : P} {q r : List I} (position : Function.update pos p (some q) a = some r) :
    (a = p ∧ r = q) ∨ (a ≠ p ∧ pos a = some r) := by
  by_cases here : a = p
  · subst here
    rw [Function.update_self] at position
    exact .inl ⟨rfl, (Option.some.inj position).symm⟩
  · rw [Function.update_of_ne here] at position
    exact .inr ⟨here, position⟩

omit [DecidableEq I] in
theorem extend_keeps {p a : P} {q r : List I} (fresh : pos p = none) (position : pos a = some r) :
    Function.update pos p (some q) a = some r := by
  have other : a ≠ p := by
    rintro rfl
    rw [fresh] at position
    cases position
  rw [Function.update_of_ne other]
  exact position

-- A page without a position may be given one that its row fits.
omit [DecidableEq I] in
theorem Typed.extend (typed : Typed nav depth h pos) (p : P) (q : List I) (fresh : pos p = none)
    (short : q.length ≤ depth)
    (fits : ∀ i c, q.length < depth → nav (h p i) = some c → pos c = some (q ++ [i])) :
    Typed nav depth h (Function.update pos p (some q)) where
  bound a r position := by
    rcases extend_cases position with ⟨_, rfl⟩ | ⟨_, before⟩
    · exact short
    · exact typed.bound a r before
  child a r j c position shorter found := by
    refine extend_keeps fresh ?_
    rcases extend_cases position with ⟨rfl, rfl⟩ | ⟨_, before⟩
    · exact fits j c shorter found
    · exact typed.child a r j c before shorter found

end Update

end Radix
