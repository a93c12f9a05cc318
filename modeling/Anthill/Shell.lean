import Anthill.Bytes
import Anthill.Strtok

set_option autoImplicit false

namespace Anthill

open Bytes (Store)

namespace Shell

/-- The buffer for a line. Where its size is zero the pointer to it is NULL. -/
structure LineBuf where
  bytes : Store
  size : Nat

inductive ShError where
  | ok | nomem | invalid | notfound | cont
deriving DecidableEq

/-- What _loop returns, with the buffer, what has been put to stdout and what fgetc has not returned yet. -/
structure LineRead where
  error : ShError
  buf : LineBuf
  echo : List (BitVec 8)
  rest : List (Option (BitVec 8))

/-- It waits for stdin, or it reads or writes outside of the buffer. -/
inductive Stop where
  | waits | outside
deriving DecidableEq

def LineBuf.nextSize (b : LineBuf) : Nat := if b.size ≠ 0 then b.size * 2 else 64

/-- The buffer before a character is put at `pos`. `realloc` has what lies behind the old contents in a new buffer. -/
def LineBuf.grow (realloc : Nat → Option Store) (pos : Nat) (b : LineBuf) : Option LineBuf :=
  if pos = b.size then
    (realloc b.nextSize).map fun fresh => ⟨fun a => if a < b.size then b.bytes a else fresh a, b.nextSize⟩
  else some b

def LineBuf.put (b : LineBuf) (pos : Nat) (c : BitVec 8) : Except Stop LineBuf :=
  if pos < b.size then .ok ⟨b.bytes.set pos c, b.size⟩ else .error .outside

-- _loop, with what fgetc returns; `none` is EOF.
def loop (realloc : Nat → Option Store) :
    List (Option (BitVec 8)) → Nat → LineBuf → List (BitVec 8) → Except Stop LineRead
  | [], pos, b, echo =>
    match b.grow realloc pos with
    | none => .ok ⟨.nomem, b, echo, []⟩
    | some _ => .error .waits
  | key :: keys, pos, b, echo =>
    match b.grow realloc pos with
    | none => .ok ⟨.nomem, b, echo, key :: keys⟩
    | some b =>
      match key with
      | none => loop realloc keys pos b echo
      | some c =>
        if c = 0x03 then (b.put pos 0).map fun b => ⟨.cont, b, echo ++ [0x0a], keys⟩
        else if c = 0x0a then (b.put pos 0).map fun b => ⟨.ok, b, echo ++ [c], keys⟩
        else (b.put pos c).bind fun b => loop realloc keys (pos + 1) b (echo ++ [c])

-- strcnt on what stands before the NUL.
def strcnt : List (BitVec 8) → BitVec 8 → Nat
  | [], _ => 0
  | ch :: s, c => if c = ch then strcnt s c + 1 else strcnt s c

def space : CStr := ⟨[0x20], by decide⟩

-- The pointers that `n` calls of strtok give, all but the first made with NULL.
def tokenPointers : Nat → Option Nat → Strtok → List (Option Nat) × Strtok
  | 0, _, st => ([], st)
  | n + 1, s, st =>
    let (p, st) := strtok space s st
    let (ps, st) := tokenPointers n none st
    (p :: ps, st)

-- The string that a pointer leads to, when all calls have been made.
def stringAt (st : Strtok) (p : Nat) : List (BitVec 8) := (st.buf.drop p).takeWhile fun c => c ≠ 0

/-- The arguments that _execute makes from a line, with the NULL behind them. -/
def argv (line : List (BitVec 8)) (prev : Option Nat) : List (Option (List (BitVec 8))) :=
  let (ps, st) := tokenPointers (strcnt line 0x20 + 1) (some 0) ⟨line, prev⟩
  ps.map (Option.map (stringAt st)) ++ [none]

/-- What _execute calls. -/
inductive Command where
  | noDirectory
  | cd (path : Option (List (BitVec 8)))
  | usage
  | importfs (channel path : Option (List (BitVec 8)))
  | ls
  | spawn (args : List (Option (List (BitVec 8))))
deriving DecidableEq

/-- _execute with the commands of the shell, as far as to what they open. It has no result where the command is NULL. -/
def execute (line : List (BitVec 8)) (prev : Option Nat) : Option Command :=
  let args := argv line prev
  let argc := strcnt line 0x20 + 1
  (args.getD 0 none).map fun cmd =>
    if cmd = chars "cd" then if argc = 1 then .noDirectory else .cd (args.getD 1 none)
    else if cmd = chars "importfs" then if argc ≠ 3 then .usage else .importfs (args.getD 1 none) (args.getD 2 none)
    else if cmd = chars "ls" then .ls
    else .spawn args

-- What a string function reads from the buffer on: it goes on behind the end where there is no NUL.
def LineBuf.string (b : LineBuf) : Except Stop (List (BitVec 8)) :=
  if 0 ∈ b.bytes.bytes 0 b.size then .ok ((b.bytes.bytes 0 b.size).takeWhile fun c => c ≠ 0) else .error .outside

inductive Turn where
  | again
  | executed (command : Option Command) (exit : Bool)
deriving DecidableEq

/-- A turn of the loop of main. Where there is no memory for the line it is executed as well. -/
def turn (realloc : Nat → Option Store) (keys : List (Option (BitVec 8))) (b : LineBuf) (prev : Option Nat) :
    Except Stop (Turn × LineRead) :=
  (loop realloc keys 0 b []).bind fun read =>
    match read.error with
    | .cont => .ok (.again, read)
    | .nomem => read.buf.string.map fun line => (.executed (execute line prev) true, read)
    | .invalid | .notfound | .ok => read.buf.string.map fun line => (.executed (execute line prev) false, read)

-- The pieces of a line between its spaces. Spaces that follow one another count as one.
def pieces : List (BitVec 8) → List (List (BitVec 8))
  | [] => [[]]
  | c :: s =>
    if c = 0x20 then if s.head? = some 0x20 then pieces s else [] :: pieces s
    else
      match pieces s with
      | [] => [[c]]
      | w :: ws => (c :: w) :: ws

section Pieces

variable {s : List (BitVec 8)}

theorem strcnt_eq (s : List (BitVec 8)) (c : BitVec 8) : strcnt s c = s.count c := by
  induction s with
  | nil => rfl
  | cons ch s ih =>
    rw [strcnt, List.count_cons, ih]
    by_cases same : c = ch
    · rw [if_pos same, same, if_pos (beq_self_eq_true ch)]
    · rw [if_neg same, if_neg (by simpa using Ne.symm same), Nat.add_zero]

theorem pieces_eq (s : List (BitVec 8)) : pieces s = (s.takeWhile fun c => c ≠ 0x20) ::
    if (s.dropWhile fun c => c ≠ 0x20) = [] then []
    else pieces ((s.dropWhile fun c => c ≠ 0x20).dropWhile fun c => c = 0x20) := by
  induction s with
  | nil => rfl
  | cons c s ih =>
    by_cases gap : c = 0x20
    · subst gap
      rw [pieces, if_pos rfl, List.takeWhile_cons_of_neg (by decide), List.dropWhile_cons_of_neg (by decide),
        if_neg (List.cons_ne_nil _ _), List.dropWhile_cons_of_pos (by decide)]
      cases s with
      | nil => rfl
      | cons c' s =>
        by_cases more : c' = 0x20
        · subst more
          rw [List.head?_cons, if_pos rfl, ih, List.takeWhile_cons_of_neg (by decide), List.dropWhile_cons_of_neg (by decide),
            if_neg (List.cons_ne_nil _ _)]
        · rw [if_neg (by simpa using more), List.dropWhile_cons_of_neg (by simpa using more)]
    · rw [pieces, if_neg gap, List.takeWhile_cons_of_pos (by simpa using gap),
        List.dropWhile_cons_of_pos (by simpa using gap), ih]

theorem pieces_ne_nil (s : List (BitVec 8)) : pieces s ≠ [] := by
  rw [pieces_eq]
  exact List.cons_ne_nil _ _

theorem pieces_length_cons {c : BitVec 8} (other : c ≠ 0x20) (s : List (BitVec 8)) :
    (pieces (c :: s)).length = (pieces s).length := by
  rw [pieces, if_neg other]
  cases is : pieces s with
  | nil => exact absurd is (pieces_ne_nil s)
  | cons w ws => rfl

/-- There is a piece for each space and one more, unless two spaces follow one another. -/
theorem pieces_length (s : List (BitVec 8)) : (pieces s).length ≤ s.count 0x20 + 1 ∧
    ((pieces s).length < s.count 0x20 + 1 ↔ ∃ a b, s = a ++ 0x20 :: 0x20 :: b) := by
  induction s with
  | nil =>
    refine ⟨by decide, fun less => absurd less (by decide), ?_⟩
    rintro ⟨a, b, is⟩
    exact absurd (congrArg List.length is) (by simp)
  | cons c s ih =>
    obtain ⟨most, fewer⟩ := ih
    have moved (a b : List (BitVec 8)) (is : s = a ++ 0x20 :: 0x20 :: b) : ∃ a b, c :: s = a ++ 0x20 :: 0x20 :: b :=
      ⟨c :: a, b, congrArg (List.cons c) is⟩
    by_cases gap : c = 0x20
    · subst gap
      rw [pieces, if_pos rfl, List.count_cons_self]
      split
      · next more =>
        obtain ⟨b, rfl⟩ := List.head?_eq_some_iff.mp more
        exact ⟨by omega, fun _ => ⟨[], b, rfl⟩, fun _ => by omega⟩
      · next other =>
        rw [List.length_cons]
        refine ⟨by omega, fun less => ?_, ?_⟩
        · obtain ⟨a, b, is⟩ := fewer.mp (by omega)
          exact moved a b is
        · rintro ⟨a, b, is⟩
          cases a with
          | nil =>
            obtain ⟨-, rfl⟩ := List.cons.inj is
            exact absurd rfl other
          | cons x a =>
            have less := fewer.mpr ⟨a, b, (List.cons.inj is).2⟩
            omega
    · rw [pieces_length_cons gap, List.count_cons_of_ne gap]
      refine ⟨most, fun less => ?_, ?_⟩
      · obtain ⟨a, b, is⟩ := fewer.mp less
        exact moved a b is
      · rintro ⟨a, b, is⟩
        cases a with
        | nil => exact absurd (List.cons.inj is).1 gap
        | cons x a => exact fewer.mpr ⟨a, b, (List.cons.inj is).2⟩

theorem two_pieces (some_ : 0x20 ∈ s) : 2 ≤ (pieces s).length := by
  have more : (s.dropWhile fun c => c ≠ 0x20) ≠ [] := by
    intro none
    have all := List.dropWhile_eq_nil_iff.mp none 0x20 some_
    exact absurd rfl (of_decide_eq_true all)
  rw [pieces_eq, if_neg more, List.length_cons]
  have positive := List.length_pos_iff.mpr (pieces_ne_nil ((s.dropWhile fun c => c ≠ 0x20).dropWhile fun c => c = 0x20))
  omega

end Pieces

section Tokens

variable {s : CStr} {buf : List (BitVec 8)} {q : Nat}

theorem not_space : (fun c => !space.1.contains c) = fun c : BitVec 8 => decide (c ≠ 0x20) := by
  funext c
  simp [space]

theorem is_space : (fun c => space.1.contains c) = fun c : BitVec 8 => decide (c = 0x20) := by
  funext c
  simp [space]

theorem drop_length_takeWhile {α : Type} (p : α → Bool) (l : List α) : l.drop (l.takeWhile p).length = l.dropWhile p := by
  have parts := List.takeWhile_append_dropWhile (p := p) (l := l)
  exact (congrArg (List.drop (l.takeWhile p).length) parts).symm.trans List.drop_left

-- What stops a run of characters is before the place to which the lists agree.
theorem takeWhile_of_take {α : Type} {p : α → Bool} {k : Nat} {x y : List α} (same : y.take k = x.take k)
    (stops : (x.takeWhile p).length < k) (shorter : (x.takeWhile p).length < x.length) : y.takeWhile p = x.takeWhile p := by
  induction k generalizing x y with
  | zero => exact absurd stops (Nat.not_lt_zero _)
  | succ k ih =>
    cases x with
    | nil => exact absurd shorter (Nat.not_lt_zero _)
    | cons c x =>
      cases y with
      | nil => cases same
      | cons c' y =>
        obtain ⟨rfl, rest⟩ := List.cons.inj same
        rw [List.takeWhile_cons] at stops shorter ⊢
        rw [List.takeWhile_cons]
        split
        · next holds =>
          rw [if_pos holds, List.length_cons] at stops shorter
          rw [List.length_cons] at shorter
          rw [ih rest (by omega) (by omega)]
        · rfl

theorem tokenPointers_null (n : Nat) : tokenPointers n none ⟨buf, none⟩ = (List.replicate n none, ⟨buf, none⟩) := by
  induction n with
  | zero => rfl
  | succ n ih =>
    have null : strtok space none ⟨buf, none⟩ = (none, ⟨buf, none⟩) := rfl
    rw [tokenPointers, null]
    simp only
    rw [ih, List.replicate_succ]

theorem pieces_last (last : tokenEnd space s q = s.1.length) : pieces (s.1.drop q) = [s.1.drop q] := by
  have whole : ((s.1.drop q).takeWhile fun c => c ≠ 0x20) = s.1.drop q := by
    refine (List.takeWhile_prefix _).eq_of_length ?_
    rw [tokenEnd, not_space] at last
    rw [List.length_drop]
    omega
  have none : ((s.1.drop q).dropWhile fun c => c ≠ 0x20) = [] := by
    rw [← drop_length_takeWhile, whole, List.drop_length]
  rw [pieces_eq, if_pos none, whole]

theorem pieces_next (more : tokenEnd space s q < s.1.length) : pieces (s.1.drop q) =
    ((s.1.drop q).takeWhile fun c => !space.1.contains c) ::
      pieces (s.1.drop (tokenEnd space s q +
        ((s.1.drop (tokenEnd space s q)).takeWhile fun c => space.1.contains c).length)) := by
  have rest : s.1.drop (tokenEnd space s q) = (s.1.drop q).dropWhile fun c => c ≠ 0x20 := by
    rw [tokenEnd, ← List.drop_drop, not_space, drop_length_takeWhile]
  have some_ : ((s.1.drop q).dropWhile fun c => c ≠ 0x20) ≠ [] := by
    rw [← rest]
    exact fun none => absurd (List.drop_eq_nil_iff.mp none) (Nat.not_le.mpr more)
  rw [pieces_eq, if_neg some_, ← rest, ← List.drop_drop, is_space, drop_length_takeWhile, not_space]

theorem gap_after (more : tokenEnd space s q < s.1.length) :
    let next := tokenEnd space s q + ((s.1.drop (tokenEnd space s q)).takeWhile fun c => space.1.contains c).length
    tokenEnd space s q < next ∧ next ≤ s.1.length := by
  have short := Spans.length_takeWhile_drop (fun c => space.1.contains c) s.1 (tokenEnd space s q)
  have stop := Spans.not_any_after (fun c => !space.1.contains c) s.1 q
  rw [← tokenEnd, List.getElem?_eq_getElem more] at stop
  have separator : space.1.contains s.1[tokenEnd space s q] = true := by simpa using stop
  have first : 0 < ((s.1.drop (tokenEnd space s q)).takeWhile fun c => space.1.contains c).length := by
    rw [List.drop_eq_getElem_cons more, List.takeWhile_cons, if_pos separator]
    exact Nat.succ_pos _
  exact ⟨by omega, by omega⟩

/-- What the calls of strtok lead to when all have been made: the pieces of the string, and then NULL. Before the pointer
the string stays as it is. -/
theorem tokenPointers_eq (n : Nat) : ∀ (q : Nat) (buf : List (BitVec 8)) (arg prev : Option Nat), arg.or prev = some q →
    q ≤ s.1.length → buf.drop q = s.1.drop q → q ≤ buf.length →
    let out := tokenPointers n arg ⟨buf, prev⟩
    out.1.map (Option.map (stringAt out.2)) = ((pieces (s.1.drop q)).map some ++ List.replicate n none).take n ∧
      out.2.buf.take q = buf.take q := by
  induction n with
  | zero => exact fun _ _ _ _ _ _ _ _ => ⟨rfl, rfl⟩
  | succ n ih =>
    intro q buf arg prev pointer inside same within
    rcases Nat.lt_or_ge (tokenEnd space s q) s.1.length with more | last
    · have low : q ≤ tokenEnd space s q := Nat.le_add_right q _
      obtain ⟨passed, short⟩ := gap_after more
      have next := strtok_next same arg prev pointer more
      have token : Strtok.token (some q, ⟨buf.set (tokenEnd space s q) 0, some 0⟩) = _ := token_next (some 0) same
      have long := congrArg List.length same
      rw [pieces_next more]
      generalize tokenEnd space s q +
        ((s.1.drop (tokenEnd space s q)).takeWhile fun c => space.1.contains c).length = q' at next short passed ⊢
      rw [List.length_drop, List.length_drop] at long
      obtain ⟨later, kept⟩ := ih q' (buf.set (tokenEnd space s q) 0) none (some q') rfl (by omega) (by
        rw [List.drop_set, if_pos passed]
        have further := congrArg (fun cs => cs.drop (q' - q)) same
        simp only [List.drop_drop] at further
        rwa [Nat.add_sub_cancel' (by omega)] at further) (by
        rw [List.length_set]
        omega)
      rw [tokenPointers, next]
      simp only at later kept ⊢
      generalize tokenPointers n none ⟨buf.set (tokenEnd space s q) 0, some q'⟩ = out at later kept ⊢
      obtain ⟨ps, st⟩ := out
      simp only at later kept ⊢
      have text := (Prod.mk.inj (Option.some.inj token)).2
      have ends : ((s.1.drop q).takeWhile fun c => !space.1.contains c).length + q = tokenEnd space s q := Nat.add_comm ..
      have agree : (st.buf.drop q).take (q' - q) = ((buf.set (tokenEnd space s q) 0).drop q).take (q' - q) := by
        rw [← List.drop_take, kept, List.drop_take]
      have first : stringAt st q = (s.1.drop q).takeWhile fun c => !space.1.contains c := by
        refine (takeWhile_of_take agree ?_ ?_).trans text
        · rw [text]
          omega
        · rw [text, List.length_drop, List.length_set]
          omega
      have cut (xs : List (Option (List (BitVec 8)))) :
          (xs ++ List.replicate (n + 1) none).take n = (xs ++ List.replicate n none).take n := by
        rw [List.take_append, List.take_append, List.take_replicate, List.take_replicate, Nat.min_eq_left (by omega),
          Nat.min_eq_left (by omega)]
      refine ⟨?_, ?_⟩
      · rw [List.map_cons, List.map_cons, List.cons_append, List.take_succ_cons, cut, ← later, Option.map_some, first]
      · have before := congrArg (List.take q) kept
        rw [List.take_take, List.take_take, Nat.min_eq_left (by omega), List.take_set_of_le low] at before
        exact before
    · have last := Nat.le_antisymm (tokenEnd_le inside) last
      have nonzero : (s.1.drop q).takeWhile (fun c => c ≠ 0) = s.1.drop q := by
        rw [List.takeWhile_eq_self_iff]
        exact fun c member => decide_eq_true fun zero => not_mem_drop s q (zero ▸ member)
      rw [tokenPointers, strtok_last same arg prev pointer last, pieces_last last]
      simp only [tokenPointers_null, List.map_cons, Option.map_some, stringAt, same, nonzero]
      refine ⟨?_, trivial⟩
      simp

theorem argv_eq (s : CStr) (prev : Option Nat) : argv s.1 prev = (pieces s.1).map some ++
    List.replicate (s.1.count 0x20 + 2 - (pieces s.1).length) none := by
  obtain ⟨most, -⟩ := pieces_length s.1
  obtain ⟨is, -⟩ := tokenPointers_eq (s := s) (s.1.count 0x20 + 1) 0 s.1 (some 0) prev rfl (Nat.zero_le _) rfl (Nat.zero_le _)
  have all : ((pieces s.1).map some).length ≤ s.1.count 0x20 + 1 := by rwa [List.length_map]
  rw [argv, strcnt_eq]
  simp only
  rw [is, List.drop_zero, List.take_append, List.take_of_length_le all, List.take_replicate, List.append_assoc,
    List.length_map, Nat.min_eq_left (Nat.sub_le ..)]
  have one : [none] = List.replicate 1 (none : Option (List (BitVec 8))) := rfl
  rw [one, List.replicate_append_replicate]
  congr 2
  omega

theorem argv_get (s : CStr) (prev : Option Nat) (i : Nat) : (argv s.1 prev).getD i none = (pieces s.1)[i]? := by
  rw [argv_eq, List.getD_eq_getElem?_getD, List.getElem?_append, List.length_map]
  split
  · next inside => rw [List.getElem?_map, List.getElem?_eq_getElem inside]; rfl
  · next outside =>
    rw [List.getElem?_eq_none (Nat.le_of_not_lt outside), List.getElem?_replicate]
    split <;> rfl

/-- The arguments are the pieces of the line, and NULL for each space that does not end a piece. The command is not NULL, nor
is what cd opens; importfs mounts on NULL where the two spaces of its line follow one another. -/
theorem shell_arguments (s : CStr) (prev : Option Nat) :
    argv s.1 prev = (pieces s.1).map some ++ List.replicate (s.1.count 0x20 + 2 - (pieces s.1).length) none ∧
      ∃ command, execute s.1 prev = some command ∧ (∀ path, command = .cd path → path.isSome) ∧
        ∀ channel path, command = .importfs channel path →
          channel.isSome ∧ (path = none ↔ ∃ a b, s.1 = a ++ 0x20 :: 0x20 :: b) := by
  refine ⟨argv_eq s prev, ?_⟩
  obtain ⟨most, adjacent⟩ := pieces_length s.1
  have second (some_ : s.1.count 0x20 ≠ 0) : ((pieces s.1)[1]?).isSome := by
    have two := two_pieces (List.count_pos_iff.mp (Nat.pos_of_ne_zero some_))
    rw [List.getElem?_eq_getElem two]
    rfl
  cases is : (pieces s.1)[0]? with
  | none => exact absurd (List.length_eq_zero_iff.mp (by rw [List.getElem?_eq_none_iff] at is; omega)) (pieces_ne_nil s.1)
  | some cmd =>
    have run : execute s.1 prev = some (
        if cmd = chars "cd" then if s.1.count 0x20 + 1 = 1 then .noDirectory else .cd (pieces s.1)[1]?
        else if cmd = chars "importfs" then
          if s.1.count 0x20 + 1 ≠ 3 then .usage else .importfs (pieces s.1)[1]? (pieces s.1)[2]?
        else if cmd = chars "ls" then .ls
        else .spawn (argv s.1 prev)) := by
      rw [execute, strcnt_eq, argv_get, argv_get, argv_get, is]
      rfl
    refine ⟨_, run, fun path is => ?_, fun channel path is => ?_⟩
    · split_ifs at is with isCd alone
      obtain rfl := Command.cd.inj is
      exact second (by omega)
    · split_ifs at is with isCd isImport three
      obtain ⟨rfl, rfl⟩ := Command.importfs.inj is
      refine ⟨second (by omega), List.getElem?_eq_none_iff.trans ⟨fun few => adjacent.mp (by omega), fun gap => ?_⟩⟩
      have less := adjacent.mpr gap
      omega

end Tokens

section Lines

variable (realloc : Nat → Option Store) {b : LineBuf} {pos : Nat} {done : List (BitVec 8)}

/-- The characters so far are in the buffer. -/
structure LineBuf.Holds (b : LineBuf) (done : List (BitVec 8)) : Prop where
  fits : done.length ≤ b.size
  bytes : b.bytes.bytes 0 done.length = done

theorem LineBuf.Holds.grow (holds : b.Holds done) :
    (b.grow realloc done.length = none ∧ b.size = done.length ∧ realloc b.nextSize = none) ∨
      ∃ b', b.grow realloc done.length = some b' ∧ b'.Holds done ∧ done.length < b'.size := by
  rw [LineBuf.grow]
  split
  · next full =>
    cases new : realloc b.nextSize with
    | none => exact .inl ⟨rfl, full.symm, rfl⟩
    | some fresh =>
      have larger : b.size < b.nextSize := by
        rw [LineBuf.nextSize]
        split <;> omega
      refine .inr ⟨_, rfl, ⟨by simp only; omega, ?_⟩, by simp only; omega⟩
      refine (Store.bytes_congr fun a _ inside => ?_).trans holds.bytes
      exact if_pos (by omega)
  · next room => exact .inr ⟨b, rfl, holds, Nat.lt_of_le_of_ne holds.fits room⟩

theorem LineBuf.Holds.put (holds : b.Holds done) (room : done.length < b.size) (c : BitVec 8) :
    ∃ b', b.put done.length c = .ok b' ∧ b'.size = b.size ∧ b'.Holds (done ++ [c]) := by
  refine ⟨⟨b.bytes.set done.length c, b.size⟩, if_pos room, rfl, ?_, ?_⟩
  · rw [List.length_append, List.length_singleton]
    exact room
  · have before : (b.bytes.set done.length c).bytes 0 done.length = b.bytes.bytes 0 done.length :=
      Store.bytes_congr fun a _ inside => if_neg (by omega)
    rw [List.length_append, List.length_singleton, Store.bytes_add, before, holds.bytes]
    simp [Store.bytes, Store.set]

/-- What _loop reads as far as to the key that ends the line: all of it, or what there is memory for. -/
theorem loop_reads {keys : List (Option (BitVec 8))} {key : BitVec 8} (ends : key = 0x03 ∨ key = 0x0a)
    (rest : List (Option (BitVec 8))) (plain : ∀ c, some c ∈ keys → c ≠ 0x03 ∧ c ≠ 0x0a) (holds : b.Holds done) :
    let typed := done ++ keys.filterMap id
    (∃ b', loop realloc (keys ++ some key :: rest) done.length b done =
        .ok ⟨if key = 0x03 then .cont else .ok, b', typed ++ [0x0a], rest⟩ ∧ b'.Holds (typed ++ [0])) ∨
      ∃ b' rest', loop realloc (keys ++ some key :: rest) done.length b done = .ok ⟨.nomem, b', typed.take b'.size, rest'⟩ ∧
        b'.size ≤ typed.length ∧ b'.Holds (typed.take b'.size) ∧ realloc b'.nextSize = none := by
  induction keys generalizing b done with
  | nil =>
    simp only [List.nil_append, List.filterMap_nil, List.append_nil]
    rw [loop]
    rcases holds.grow realloc with ⟨grown, full, failed⟩ | ⟨b₁, grown, holds₁, room⟩
    · refine .inr ⟨b, some key :: rest, ?_, full.le, ?_, failed⟩
      · rw [grown, full, List.take_length]
      · rw [full, List.take_length]
        exact holds
    · obtain ⟨b', put, -, holds'⟩ := holds₁.put room 0
      refine .inl ⟨b', ?_, holds'⟩
      rw [grown]
      rcases ends with rfl | rfl
      · simp only [if_true, put]
        rfl
      · have other : ¬ (0x0a : BitVec 8) = 0x03 := by decide
        simp only [if_true, if_neg other, put]
        rfl
  | cons k keys ih =>
    have fewer : ∀ c, some c ∈ keys → c ≠ 0x03 ∧ c ≠ 0x0a := fun c member => plain c (List.mem_cons_of_mem _ member)
    rw [List.cons_append, loop]
    rcases holds.grow realloc with ⟨grown, full, failed⟩ | ⟨b₁, grown, holds₁, room⟩
    · have before : (done ++ (k :: keys).filterMap id).take b.size = done := by rw [full, List.take_left]
      refine .inr ⟨b, k :: (keys ++ some key :: rest), ?_, ?_, before.symm ▸ holds, failed⟩
      · rw [grown, before]
      · rw [full, List.length_append]
        exact Nat.le_add_right _ _
    · rw [grown]
      cases k with
      | none => exact ih fewer holds₁
      | some c =>
        obtain ⟨notBreak, notEnd⟩ := plain c List.mem_cons_self
        obtain ⟨b', put, -, holds'⟩ := holds₁.put room c
        have later := ih fewer holds'
        rw [List.length_append, List.length_singleton, List.append_assoc, List.singleton_append] at later
        simp only [if_neg notBreak, if_neg notEnd, put]
        exact later

theorem LineBuf.Holds.string (holds : b.Holds (done ++ [0])) : b.string = .ok (done.takeWhile fun c => c ≠ 0) := by
  have fits := holds.fits
  have whole : b.bytes.bytes 0 b.size = done ++ 0 :: b.bytes.bytes (done ++ [0]).length (b.size - (done ++ [0]).length) := by
    have parts := b.bytes.bytes_add 0 (done ++ [0]).length (b.size - (done ++ [0]).length)
    rw [holds.bytes, Nat.add_sub_cancel' fits, Nat.zero_add, List.append_assoc, List.singleton_append] at parts
    exact parts
  rw [LineBuf.string, whole, if_pos (List.mem_append_right _ List.mem_cons_self), List.takeWhile_append,
    List.takeWhile_cons_of_neg (by decide), List.append_nil]
  split
  · next all => rw [(List.takeWhile_prefix _).eq_of_length all]
  · rfl

/-- A turn of the shell executes the line that was typed, as far as to a NUL in it, unless it ends with Control-C. Where
realloc fails it executes what is in the buffer, which has no end. -/
theorem shell_turn {keys : List (Option (BitVec 8))} {key : BitVec 8} (ends : key = 0x03 ∨ key = 0x0a)
    (plain : ∀ c, some c ∈ keys → c ≠ 0x03 ∧ c ≠ 0x0a) (rest : List (Option (BitVec 8))) (b : LineBuf) (prev : Option Nat) :
    let typed := keys.filterMap id
    let out := turn realloc (keys ++ some key :: rest) b prev
    (∃ b', typed.length < b'.size ∧
      out = .ok (if key = 0x03 then .again else .executed (execute (typed.takeWhile fun c => c ≠ 0) prev) false,
        ⟨if key = 0x03 then .cont else .ok, b', typed ++ [0x0a], rest⟩)) ∨
      (∃ n, n ≤ max 64 (2 * typed.length) ∧ realloc n = none) ∧ (0 ∉ typed → out = .error .outside) := by
  intro typed out
  have start : b.Holds [] := ⟨Nat.zero_le _, rfl⟩
  rcases loop_reads realloc ends rest plain start with ⟨b', read, holds⟩ | ⟨b', rest', read, short, holds, failed⟩
  · rw [List.nil_append] at read holds
    have room := holds.fits
    rw [List.length_append, List.length_singleton] at room
    refine .inl ⟨b', room, ?_⟩
    have is : out = _ := congrArg (fun r => Except.bind r _) read
    rw [is]
    rcases ends with rfl | rfl
    · rfl
    · have other : ¬ (0x0a : BitVec 8) = 0x03 := by decide
      simp only [if_neg other, Except.bind, holds.string]
      rfl
  · rw [List.nil_append] at read holds short
    have short : b'.size ≤ typed.length := short
    refine .inr ⟨⟨b'.nextSize, ?_, failed⟩, fun some_ => ?_⟩
    · rw [LineBuf.nextSize]
      split <;> omega
    · have full : (typed.take b'.size).length = b'.size := List.length_take_of_le short
      have bytes := holds.bytes
      rw [full] at bytes
      have outside : b'.string = .error .outside := by
        rw [LineBuf.string, bytes]
        exact if_neg fun member => some_ (List.mem_of_mem_take member)
      have is : out = _ := congrArg (fun r => Except.bind r _) read
      rw [is]
      simp only [Except.bind, outside]
      rfl

-- "cd /" in an empty buffer, with memory and without.
theorem shell_turn_cd : (∃ b', turn (fun _ => some fun _ => 0) [some 0x63, some 0x64, none, some 0x20, some 0x2f, some 0x0a]
      ⟨fun _ => 0, 0⟩ none = .ok (.executed (some (.cd (some [0x2f]))) false, ⟨.ok, b', [0x63, 0x64, 0x20, 0x2f, 0x0a], []⟩)) ∧
    turn (fun _ => none) [some 0x63, some 0x0a] ⟨fun _ => 0, 0⟩ none = .error .outside := by
  refine ⟨?_, ?_⟩
  · have plain : ∀ c : BitVec 8, some c ∈ [some 0x63, some 0x64, none, some 0x20, some 0x2f] → c ≠ 0x03 ∧ c ≠ 0x0a := by decide
    rcases shell_turn (fun _ => some fun _ => 0) (.inr rfl) plain [] ⟨fun _ => 0, 0⟩ none with
      ⟨b', -, is⟩ | ⟨⟨n, -, failed⟩, -⟩
    · exact ⟨b', is⟩
    · cases failed
  · have plain : ∀ c : BitVec 8, some c ∈ [some 0x63] → c ≠ 0x03 ∧ c ≠ 0x0a := by decide
    rcases shell_turn (fun _ => none) (.inr rfl) plain [] ⟨fun _ => 0, 0⟩ none with ⟨b', -, is⟩ | ⟨-, is⟩
    · cases is
    · exact is (by decide)

end Lines

end Shell

end Anthill
