import Anthill.CString
import Anthill.Spans

set_option autoImplicit false

namespace Anthill

/-- The bytes of a string that is being split, and the static pointer of strtok into them. -/
structure Strtok where
  buf : List (BitVec 8)
  prev : Option Nat

def strtok (sep : CStr) (s : Option Nat) (st : Strtok) : Option Nat × Strtok :=
  match s.or st.prev with
  | none => (none, st)
  | some s =>
    let prev := s + strcspn (st.buf.drop s) sep.1
    if st.buf.getD prev 0 = 0 then (some s, ⟨st.buf, none⟩)
    else
      let buf := st.buf.set prev 0
      (some s, ⟨buf, some (prev + 1 + strspn (buf.drop (prev + 1)) sep.1)⟩)

-- The string at the pointer that comes back, with its place.
def Strtok.token (result : Option Nat × Strtok) : Option (Nat × List (BitVec 8)) :=
  result.1.map fun s => (s, (result.2.buf.drop s).takeWhile fun c => c ≠ 0)

/-- What call `i` of strtok gives, when all but the first are made with a null pointer. -/
def strtokCalls (sep : CStr) : Nat → Option Nat → Strtok → Option (Nat × List (BitVec 8))
  | 0, s, st => Strtok.token (strtok sep s st)
  | i + 1, s, st => strtokCalls sep i none (strtok sep s st).2

/-- The calls give the longest runs of characters that are no separators, one after another, and then NULL. -/
def Tokenises (sep s : CStr) (prev : Option Nat) : Prop :=
  ∀ i, strtokCalls sep i (some 0) ⟨s.1, prev⟩ = (Spans.spans (fun c => !sep.1.contains c) s.1)[i]?

theorem strtokCalls_none (sep : CStr) (buf : List (BitVec 8)) (i : Nat) : strtokCalls sep i none ⟨buf, none⟩ = none := by
  induction i with
  | zero => rfl
  | succ i ih => exact ih

section Calls

variable (sep s : CStr)

-- What a call gives that finds its pointer at the NUL of the string.
def emptyToken : List (Nat × List (BitVec 8)) :=
  if s.1[s.1.length - 1]?.any fun c => sep.1.contains c then [(s.1.length, [])] else []

-- Where the token that starts at `q` ends.
def tokenEnd (q : Nat) : Nat := q + ((s.1.drop q).takeWhile fun c => !sep.1.contains c).length

theorem tokenEnd_le {sep s : CStr} {q : Nat} (inside : q ≤ s.1.length) : tokenEnd sep s q ≤ s.1.length := by
  have short := Spans.length_takeWhile_drop (fun c => !sep.1.contains c) s.1 q
  rw [tokenEnd]
  omega

variable {sep s} {buf : List (BitVec 8)} {q : Nat} (same : buf.drop q = s.1.drop q)

include same

theorem buf_get (e : Nat) (le : q ≤ e) : buf[e]? = s.1[e]? := by
  have there := congrArg (fun cs => cs[e - q]?) same
  simp only [List.getElem?_drop] at there
  rwa [show q + (e - q) = e by omega] at there

theorem strtok_last (arg prev : Option Nat) (pointer : arg.or prev = some q) (last : tokenEnd sep s q = s.1.length) :
    strtok sep arg ⟨buf, prev⟩ = (some q, ⟨buf, none⟩) := by
  have nonzero : 0 ∉ s.1.drop q := fun member => s.2 (List.mem_of_mem_drop member)
  have stop : q + strcspn (buf.drop q) sep.1 = tokenEnd sep s q := by
    rw [same, strcspn_eq _ _ nonzero, tokenEnd]
  have nul : buf.getD (tokenEnd sep s q) 0 = 0 := by
    rw [List.getD_eq_getElem?_getD, buf_get same (tokenEnd sep s q) (Nat.le_add_right q _), last,
      List.getElem?_eq_none le_rfl]
    rfl
  simp only [strtok, pointer, stop, nul, if_true]

theorem strtok_next (arg prev : Option Nat) (pointer : arg.or prev = some q) (more : tokenEnd sep s q < s.1.length) :
    strtok sep arg ⟨buf, prev⟩ = (some q, ⟨buf.set (tokenEnd sep s q) 0,
      some (tokenEnd sep s q + ((s.1.drop (tokenEnd sep s q)).takeWhile fun c => sep.1.contains c).length)⟩) := by
  have nonzero (k : Nat) : 0 ∉ s.1.drop k := fun member => s.2 (List.mem_of_mem_drop member)
  have low : q ≤ tokenEnd sep s q := Nat.le_add_right q _
  have stop : q + strcspn (buf.drop q) sep.1 = tokenEnd sep s q := by
    rw [same, strcspn_eq _ _ (nonzero q), tokenEnd]
  have there : buf[tokenEnd sep s q]? = some s.1[tokenEnd sep s q] := by
    rw [buf_get same _ low, List.getElem?_eq_getElem more]
  have character : buf.getD (tokenEnd sep s q) 0 ≠ 0 := by
    rw [List.getD_eq_getElem?_getD, there]
    intro zero
    have member := List.getElem_mem more
    rw [show s.1[tokenEnd sep s q] = 0 from zero] at member
    exact s.2 member
  have separator : sep.1.contains s.1[tokenEnd sep s q] = true := by
    have after := Spans.not_any_after (fun c => !sep.1.contains c) s.1 q
    rw [← tokenEnd, List.getElem?_eq_getElem more] at after
    simpa using after
  have tail : (buf.set (tokenEnd sep s q) 0).drop (tokenEnd sep s q + 1) = s.1.drop (tokenEnd sep s q + 1) := by
    rw [List.drop_set_of_lt (Nat.lt_succ_self _)]
    have further := congrArg (fun cs => cs.drop (tokenEnd sep s q + 1 - q)) same
    simp only [List.drop_drop] at further
    rwa [show q + (tokenEnd sep s q + 1 - q) = tokenEnd sep s q + 1 by omega] at further
  have gap : ((s.1.drop (tokenEnd sep s q)).takeWhile fun c => sep.1.contains c).length =
      ((s.1.drop (tokenEnd sep s q + 1)).takeWhile fun c => sep.1.contains c).length + 1 := by
    rw [List.drop_eq_getElem_cons more, List.takeWhile_cons, if_pos separator, List.length_cons]
  simp only [strtok, pointer, stop, character, if_false, tail, strspn_eq _ _ (nonzero _), gap]
  rw [Nat.add_assoc, Nat.add_comm 1]

end Calls

section Tokens

variable {sep s : CStr} {buf : List (BitVec 8)} {q : Nat}

theorem token_of (prev : Option Nat) (r rest : List (BitVec 8)) (is : buf.drop q = r ++ rest) (nonzero : 0 ∉ r)
    (stop : rest.headD 0 = 0) : Strtok.token (some q, ⟨buf, prev⟩) = some (q, r) := by
  have all (c : BitVec 8) (member : c ∈ r) : decide (c ≠ 0) = true :=
    decide_eq_true fun zero => nonzero (zero ▸ member)
  rw [Strtok.token, Option.map_some, is, List.takeWhile_append_of_pos all]
  cases rest with
  | nil => rw [List.takeWhile_nil, List.append_nil]
  | cons c rest =>
    have zero : c = 0 := stop
    rw [zero, List.takeWhile_cons, if_neg (by decide), List.append_nil]

theorem not_mem_drop (s : CStr) (q : Nat) : 0 ∉ s.1.drop q := fun member => s.2 (List.mem_of_mem_drop member)

theorem token_last (prev : Option Nat) (same : buf.drop q = s.1.drop q) (last : tokenEnd sep s q = s.1.length)
    (inside : q ≤ s.1.length) :
    Strtok.token (some q, ⟨buf, prev⟩) = some (q, (s.1.drop q).takeWhile fun c => !sep.1.contains c) := by
  have whole : ((s.1.drop q).takeWhile fun c => !sep.1.contains c) = s.1.drop q := by
    refine (List.takeWhile_prefix _).eq_of_length ?_
    rw [tokenEnd] at last
    rw [List.length_drop]
    omega
  rw [whole]
  exact token_of prev (s.1.drop q) [] (by rw [same, List.append_nil]) (not_mem_drop s q) rfl

theorem token_next (prev : Option Nat) (same : buf.drop q = s.1.drop q) :
    Strtok.token (some q, ⟨buf.set (tokenEnd sep s q) 0, prev⟩) =
      some (q, (s.1.drop q).takeWhile fun c => !sep.1.contains c) := by
  have parts := List.takeWhile_append_dropWhile (p := fun c => !sep.1.contains c) (l := s.1.drop q)
  have low : ¬ tokenEnd sep s q < q := Nat.not_lt.mpr (Nat.le_add_right q _)
  have place : tokenEnd sep s q - q = ((s.1.drop q).takeWhile fun c => !sep.1.contains c).length :=
    Nat.add_sub_cancel_left q _
  refine token_of prev _ (((s.1.drop q).dropWhile fun c => !sep.1.contains c).set 0 0) ?_
    (fun member => not_mem_drop s q ((List.takeWhile_prefix _).subset member)) ?_
  · have cut := List.set_append_right (s := (s.1.drop q).takeWhile fun c => !sep.1.contains c)
      (t := (s.1.drop q).dropWhile fun c => !sep.1.contains c) _ 0 le_rfl
    rw [parts, Nat.sub_self] at cut
    rw [List.drop_set, if_neg low, same, place, cut]
  · cases (s.1.drop q).dropWhile fun c => !sep.1.contains c <;> rfl

/-- The pointer is at the start of a token, or at the NUL of a string that ends with a separator. -/
structure AtToken (sep s : CStr) (q : Nat) : Prop where
  inside : q ≤ s.1.length
  starts : q < s.1.length → Spans.startsAt (fun c => !sep.1.contains c) s.1 q = true
  ends : q = s.1.length → emptyToken sep s = [(q, [])]

-- The tokens from the pointer on.
def tokensFrom (sep s : CStr) (q : Nat) : List (Nat × List (BitVec 8)) :=
  Spans.spansFrom (fun c => !sep.1.contains c) s.1 q ++ emptyToken sep s

theorem tokensFrom_last (at_ : AtToken sep s q) (last : tokenEnd sep s q = s.1.length) :
    tokensFrom sep s q = [(q, (s.1.drop q).takeWhile fun c => !sep.1.contains c)] := by
  rcases Nat.lt_or_ge q s.1.length with more | none
  · have final : s.1[s.1.length - 1]?.any (fun c => !sep.1.contains c) = true := by
      have there := Spans.any_of_takeWhile (fun c => !sep.1.contains c) s.1 q (s.1.length - 1 - q)
        (by rw [tokenEnd] at last; omega)
      rwa [show q + (s.1.length - 1 - q) = s.1.length - 1 by omega] at there
    have nothing : emptyToken sep s = [] := by
      rw [emptyToken, if_neg]
      rw [List.getElem?_eq_getElem (by omega)] at final ⊢
      simpa using final
    rw [tokensFrom, Spans.spansFrom_span _ (at_.starts more), ← tokenEnd, last,
      Spans.spansFrom_end _ _ _ le_rfl, nothing, List.append_nil]
  · obtain rfl : q = s.1.length := Nat.le_antisymm at_.inside none
    rw [tokensFrom, Spans.spansFrom_end _ _ _ le_rfl, at_.ends rfl, List.drop_length, List.takeWhile_nil, List.nil_append]

theorem tokensFrom_next (at_ : AtToken sep s q) (more : tokenEnd sep s q < s.1.length) :
    let next := tokenEnd sep s q + ((s.1.drop (tokenEnd sep s q)).takeWhile fun c => sep.1.contains c).length
    tokensFrom sep s q = (q, (s.1.drop q).takeWhile fun c => !sep.1.contains c) :: tokensFrom sep s next ∧
      AtToken sep s next ∧ tokenEnd sep s q < next := by
  intro next
  have here : q < s.1.length := (Nat.le_add_right q _).trans_lt more
  have stop : s.1[tokenEnd sep s q]?.any (fun c => !sep.1.contains c) = false :=
    Spans.not_any_after (fun c => !sep.1.contains c) s.1 q
  have twice : (fun c => !!sep.1.contains c) = fun c => sep.1.contains c := by
    funext c
    rw [Bool.not_not]
  have gap := Spans.spansFrom_gap (fun c => !sep.1.contains c) s.1 _ more stop
  rw [twice] at gap
  have short := Spans.length_takeWhile_drop (fun c => sep.1.contains c) s.1 (tokenEnd sep s q)
  have passed : tokenEnd sep s q < next := by
    have separator : sep.1.contains s.1[tokenEnd sep s q] = true := by
      rw [List.getElem?_eq_getElem more] at stop
      simpa using stop
    have first : 0 < ((s.1.drop (tokenEnd sep s q)).takeWhile fun c => sep.1.contains c).length := by
      rw [List.drop_eq_getElem_cons more, List.takeWhile_cons, if_pos separator]
      exact Nat.succ_pos _
    omega
  refine ⟨?_, ⟨by omega, gap.2, fun whole => ?_⟩, passed⟩
  · rw [tokensFrom, Spans.spansFrom_span _ (at_.starts here), ← tokenEnd, gap.1]
    rfl
  · have final := Spans.any_of_takeWhile (fun c => sep.1.contains c) s.1 (tokenEnd sep s q)
      (s.1.length - 1 - tokenEnd sep s q) (by omega)
    rw [show tokenEnd sep s q + (s.1.length - 1 - tokenEnd sep s q) = s.1.length - 1 by omega] at final
    rw [emptyToken, if_pos final, whole]

/-- What the calls give from such a pointer on. -/
theorem strtokCalls_eq (i : Nat) : ∀ (q : Nat) (buf : List (BitVec 8)) (arg prev : Option Nat), arg.or prev = some q →
    AtToken sep s q → buf.drop q = s.1.drop q → strtokCalls sep i arg ⟨buf, prev⟩ = (tokensFrom sep s q)[i]? := by
  induction i with
  | zero =>
    intro q buf arg prev pointer at_ same
    rcases Nat.lt_or_ge (tokenEnd sep s q) s.1.length with more | last
    · rw [strtokCalls, strtok_next same arg prev pointer more, token_next _ same, (tokensFrom_next at_ more).1]
      rfl
    · have last := Nat.le_antisymm (tokenEnd_le at_.inside) last
      rw [strtokCalls, strtok_last same arg prev pointer last, token_last _ same last at_.inside,
        tokensFrom_last at_ last]
      rfl
  | succ i ih =>
    intro q buf arg prev pointer at_ same
    rcases Nat.lt_or_ge (tokenEnd sep s q) s.1.length with more | last
    · obtain ⟨tokens, next, passed⟩ := tokensFrom_next at_ more
      rw [strtokCalls, strtok_next same arg prev pointer more, tokens, List.getElem?_cons_succ]
      refine ih _ _ _ _ rfl next ?_
      rw [List.drop_set, if_pos passed]
      have low : q ≤ tokenEnd sep s q := Nat.le_add_right q _
      have further := congrArg (fun cs => cs.drop (tokenEnd sep s q +
        ((s.1.drop (tokenEnd sep s q)).takeWhile fun c => sep.1.contains c).length - q)) same
      simp only [List.drop_drop] at further
      rwa [Nat.add_sub_cancel' (by omega)] at further
    · have last := Nat.le_antisymm (tokenEnd_le at_.inside) last
      rw [strtokCalls, strtok_last same arg prev pointer last, strtokCalls_none, tokensFrom_last at_ last]
      rfl

end Tokens

section Ends

variable (sep s : CStr)

/-- The string has a character, and neither the first nor the last of them is a separator. -/
def BareEnds : Prop :=
  s.1[0]?.any (fun c => !sep.1.contains c) = true ∧ s.1[s.1.length - 1]?.any (fun c => !sep.1.contains c) = true

theorem strtokCalls_first (prev : Option Nat) : strtokCalls sep 0 (some 0) ⟨s.1, prev⟩ =
    some (0, (s.1.drop 0).takeWhile fun c => !sep.1.contains c) := by
  rcases Nat.lt_or_ge (tokenEnd sep s 0) s.1.length with more | last
  · rw [strtokCalls, strtok_next rfl (some 0) prev rfl more, token_next _ rfl]
  · have last := Nat.le_antisymm (tokenEnd_le (Nat.zero_le _)) last
    rw [strtokCalls, strtok_last rfl (some 0) prev rfl last, token_last _ rfl last (Nat.zero_le _)]

theorem emptyToken_eq_nil (more : 0 < s.1.length) :
    emptyToken sep s = [] ↔ s.1[s.1.length - 1]?.any (fun c => !sep.1.contains c) = true := by
  rw [emptyToken, List.getElem?_eq_getElem (by omega)]
  cases found : sep.1.contains s.1[s.1.length - 1] <;> simp

theorem strtok_tokenises_iff (prev : Option Nat) : Tokenises sep s prev ↔ BareEnds sep s := by
  by_cases bare : s.1[0]?.any (fun c => !sep.1.contains c) = true
  · have more : 0 < s.1.length := by
      by_contra none
      rw [List.getElem?_eq_none (Nat.le_of_not_lt none)] at bare
      cases bare
    have at_ : AtToken sep s 0 :=
      ⟨Nat.zero_le _, fun _ => by rw [Spans.startsAt, bare]; rfl, fun none => absurd none more.ne⟩
    have calls (i : Nat) := strtokCalls_eq i 0 s.1 (some 0) prev rfl at_ rfl
    rw [BareEnds, ← emptyToken_eq_nil sep s more, and_iff_right bare]
    constructor
    · intro tokenises
      have same : tokensFrom sep s 0 = Spans.spans (fun c => !sep.1.contains c) s.1 :=
        List.ext_getElem? fun i => (calls i).symm.trans (tokenises i)
      exact List.append_right_eq_self.mp same
    · intro nothing i
      rw [calls i, tokensFrom, nothing, List.append_nil, Spans.spans]
  · refine iff_of_false (fun tokenises => bare ?_) fun ends => bare ends.1
    -- The first token is where the string starts, whatever stands there.
    have first := (strtokCalls_first sep s prev).symm.trans (tokenises 0)
    have starts := Spans.startsAt_of_mem _ (List.mem_of_getElem? first.symm)
    rw [Spans.startsAt, Bool.and_eq_true] at starts
    exact starts.1

end Ends

theorem strtok_empty_token : ¬ ∀ (sep s : CStr) (prev : Option Nat), Tokenises sep s prev := by
  intro tokenises
  have first := tokenises ⟨[44], by decide⟩ ⟨[44, 97], by decide⟩ none 0
  revert first
  decide

end Anthill
