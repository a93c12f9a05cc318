import Anthill.CString
import Anthill.FcallWire
import Anthill.Formatter

set_option autoImplicit false

namespace Anthill

open Bytes (Store split)

def shrtMax : Nat := 32767

-- A pointer into a string is what is in memory from there on, with the NUL. Reading behind it has no result.

def strchr (c : BitVec 8) : List (BitVec 8) → Option (Option (List (BitVec 8)))
  | [] => none
  | d :: ds => if d = 0 then some none else if d = c then some (some (d :: ds)) else strchr c ds

def strlen : List (BitVec 8) → Option Nat
  | [] => none
  | d :: ds => if d = 0 then some 0 else (strlen ds).map fun n => n + 1

def strcnt (c : BitVec 8) : List (BitVec 8) → Option Nat
  | [] => none
  | d :: ds => if d = 0 then some 0 else (strcnt c ds).map fun n => if c = d then n + 1 else n

/-- A malloc. It refuses a size of 0. -/
structure Allocator where
  malloc : Nat → Nat
  refuses : malloc 0 = 0

-- The length of an element has 16 bits.
def putElement (m : Cells) (ptr : Nat) (s : List (BitVec 8)) (len : Nat) : Cells :=
  (m.memcpy ptr (split (BitVec.ofNat 16 len) shrtSize)).memcpy (ptr + shrtSize) (s.take len)

-- The do loop, from l on. No path has more turns than bytes.
def splitElements : Nat → List (BitVec 8) → Nat → Cells → Option Cells
  | 0, _, _, _ => none
  | fuel + 1, l, ptr, m =>
    match strchr 0x2f l.tail with
    | none => none
    | some none => (strlen l).map fun n => putElement m ptr l.tail (n - 1)
    | some (some r) =>
      let len := l.length - r.length - 1
      splitElements fuel r (ptr + len + shrtSize) (putElement m ptr l.tail len)

/-- What is returned and put in *wname, memory, and the block that was allocated with its size. -/
structure PathSplit where
  result : Int
  wname : Nat
  mem : Cells
  allocated : Option (Nat × Nat)

def fcallPathSplit (host : Allocator) (m : Cells) (wname : Nat) (path : List (BitVec 8)) : Option PathSplit :=
  if path = [0x2f, 0] then some ⟨0, 0, m, none⟩
  else match strcnt 0x2f path, strlen path with
    | some nwname, some len =>
      if shrtMax < nwname then some ⟨-1, wname, m, none⟩
      else
        let size := len + nwname * shrtSize
        let block := host.malloc size
        if block = 0 then some ⟨-1, 0, m, none⟩
        else match strchr 0x2f path with
          -- Without a slash l is NULL, and the search goes on behind it.
          | none | some none => none
          | some (some l) => (splitElements path.length l block m).map fun m => ⟨nwname, block, m, some (block, size)⟩
    | _, _ => none

-- The loop of fcall_path_size.
def pathTotal (m : Store) : Nat → Nat → Nat
  | _, 0 => 0
  | ptr, n + 1 => (getUshort m ptr).toNat + (if n = 0 then 0 else 1) + pathTotal m (ptr + pstrlen m ptr) n

def fcallPathSize (m : Store) (nwname : BitVec 16) (wname : Nat) : Nat :=
  if shrtMax < pathTotal m wname nwname.toNat then 0 else pathTotal m wname nwname.toNat

def joinSlash (es : List (List (BitVec 8))) : List (BitVec 8) := es.flatMap fun e => 0x2f :: e

def elementsAt (m : Store) (ptr n : Nat) : List (List (BitVec 8)) := (pathAt m ptr n).map Subtype.val

/-- Nothing is read behind the path. The root has no elements, a path from the root has those that it joins, in the
allocated block, and any other is refused before memory is allocated. -/
def Splits (host : Allocator) (s : CStr) : Prop :=
  ∀ (m : Store) (wname : Nat), ∃ r, fcallPathSplit host ⟨m, []⟩ wname (s.1 ++ [0]) = some r ∧
    if s.1 = [0x2f] then r.result = 0
    else if s.1.head? = some 0x2f ∧ s.1.count 0x2f ≤ shrtMax then
      host.malloc (s.1.length + s.1.count 0x2f * shrtSize) ≠ 0 →
        r.result = s.1.count 0x2f ∧ joinSlash (elementsAt r.mem.bytes r.wname (s.1.count 0x2f)) = s.1 ∧
        (∃ size, r.allocated = some (r.wname, size) ∧ ∀ a ∈ r.mem.stores, r.wname ≤ a ∧ a < r.wname + size) ∧
        (s.1.length - 1 ≤ shrtMax → fcallPathSize r.mem.bytes (BitVec.ofNat 16 (s.1.count 0x2f)) r.wname = s.1.length - 1)
    else r.result = -1 ∧ r.allocated = none

/-- Memory runs out, there are too many slashes, or the path starts with one and has short elements. -/
def Splittable (host : Allocator) (s : CStr) : Prop :=
  host.malloc (s.1.length + s.1.count 0x2f * shrtSize) = 0 ∨ shrtMax < s.1.count 0x2f ∨
    s.1.head? = some 0x2f ∧ ∀ e ∈ s.1.splitOn 0x2f, e.length < 65536

section Strings

variable {s : List (BitVec 8)} (nonzero : 0 ∉ s)

include nonzero

theorem strlen_eq : strlen (s ++ [0]) = some s.length := by
  induction s with
  | nil => rfl
  | cons d ds ih =>
    obtain ⟨first, rest⟩ := List.ne_and_not_mem_of_not_mem_cons nonzero
    rw [List.cons_append, strlen, if_neg first.symm, ih rest]
    rfl

theorem strcnt_eq (c : BitVec 8) : strcnt c (s ++ [0]) = some (s.count c) := by
  induction s with
  | nil => rfl
  | cons d ds ih =>
    obtain ⟨first, rest⟩ := List.ne_and_not_mem_of_not_mem_cons nonzero
    rw [List.cons_append, strcnt, if_neg first.symm, ih rest, List.count_cons]
    by_cases same : c = d
    · rw [Option.map_some, if_pos same, if_pos (beq_iff_eq.mpr same.symm)]
    · rw [Option.map_some, if_neg same, if_neg (fun is => same (beq_iff_eq.mp is).symm)]
      rfl

theorem strchr_none (c : BitVec 8) (missing : c ∉ s) : strchr c (s ++ [0]) = some none := by
  induction s with
  | nil => rfl
  | cons d ds ih =>
    obtain ⟨first, rest⟩ := List.ne_and_not_mem_of_not_mem_cons nonzero
    obtain ⟨other, later⟩ := List.ne_and_not_mem_of_not_mem_cons missing
    rw [List.cons_append, strchr, if_neg first.symm, if_neg other.symm, ih rest later]

theorem strchr_some (c : BitVec 8) (missing : c ∉ s) (some_ : c ≠ 0) (rest : List (BitVec 8)) :
    strchr c (s ++ c :: rest) = some (some (c :: rest)) := by
  induction s with
  | nil => rw [List.nil_append, strchr, if_neg some_, if_pos rfl]
  | cons d ds ih =>
    obtain ⟨first, others⟩ := List.ne_and_not_mem_of_not_mem_cons nonzero
    obtain ⟨other, later⟩ := List.ne_and_not_mem_of_not_mem_cons missing
    rw [List.cons_append, strchr, if_neg first.symm, if_neg other.symm, ih others later]

end Strings

theorem splitOn_cases (s : List (BitVec 8)) : (0x2f ∉ s ∧ s.splitOn 0x2f = [s]) ∨
    ∃ e rest, s = e ++ 0x2f :: rest ∧ 0x2f ∉ e ∧ s.splitOn 0x2f = e :: rest.splitOn 0x2f := by
  by_cases slash : 0x2f ∈ s
  · obtain ⟨e, rest, rfl, free⟩ := List.eq_append_cons_of_mem slash
    exact .inr ⟨e, rest, rfl, free, List.splitOn_append_cons_self_of_not_mem free rest⟩
  · exact .inl ⟨slash, List.splitOn_eq_singleton slash⟩

/-- Joining undoes splitting. -/
theorem joinSlash_splitOn (s : List (BitVec 8)) :
    joinSlash (s.splitOn 0x2f) = 0x2f :: s ∧ ∀ e ∈ s.splitOn 0x2f, 0x2f ∉ e := by
  induction long : s.length using Nat.strong_induction_on generalizing s with
  | _ n ih =>
    rcases splitOn_cases s with ⟨free, single⟩ | ⟨e, rest, rfl, free, first⟩
    · rw [single]
      refine ⟨List.append_nil _, fun e member => ?_⟩
      rwa [List.mem_singleton.mp member]
    · obtain ⟨join, others⟩ := ih rest.length (by rw [← long, List.length_append, List.length_cons]; omega) rest rfl
      rw [first]
      refine ⟨?_, List.forall_mem_cons.mpr ⟨free, others⟩⟩
      rw [joinSlash] at join ⊢
      rw [List.flatMap_cons, join]
      rfl

theorem Cells.memcpy_append (m : Cells) (a : Nat) (xs ys : List (BitVec 8)) :
    (m.memcpy a xs).memcpy (a + xs.length) ys = m.memcpy a (xs ++ ys) := by
  rw [memcpy, memcpy, memcpy, List.append_assoc, List.length_append, ← List.range'_append_1, Store.write_append]

def pathWire (es : List (List (BitVec 8))) : List (BitVec 8) :=
  es.flatMap fun e => split (BitVec.ofNat 16 e.length) shrtSize ++ e

theorem putElement_eq (m : Cells) (ptr : Nat) (e rest : List (BitVec 8)) :
    putElement m ptr (e ++ rest) e.length = m.memcpy ptr (split (BitVec.ofNat 16 e.length) shrtSize ++ e) := by
  have next := Cells.memcpy_append m ptr (split (BitVec.ofNat 16 e.length) shrtSize) e
  rw [Bytes.length_split] at next
  rw [putElement, List.take_left, next]

theorem splitElements_eq (fuel : Nat) : ∀ (s : List (BitVec 8)) (ptr : Nat) (m : Cells), 0 ∉ s → s.length < fuel →
    splitElements fuel (0x2f :: (s ++ [0])) ptr m = some (m.memcpy ptr (pathWire (s.splitOn 0x2f))) := by
  induction fuel with
  | zero =>
    intro s ptr m nonzero enough
    omega
  | succ fuel ih =>
    intro s ptr m nonzero enough
    rcases splitOn_cases s with ⟨free, single⟩ | ⟨e, rest, rfl, free, first⟩
    · have slashed : 0 ∉ 0x2f :: s := List.not_mem_cons_of_ne_of_not_mem (by decide) nonzero
      have len : strlen (0x2f :: (s ++ [0])) = some (s.length + 1) := strlen_eq slashed
      simp only [splitElements, List.tail_cons, strchr_none nonzero 0x2f free, len, Option.map_some,
        Nat.add_sub_cancel, putElement_eq, single, pathWire, List.flatMap_singleton]
    · have before : 0 ∉ e := fun member => nonzero (List.mem_append_left _ member)
      have after : 0 ∉ rest := fun member => nonzero (List.mem_append_right e (List.mem_cons_of_mem _ member))
      have found := strchr_some before 0x2f free (by decide) (rest ++ [0])
      have whole : e ++ 0x2f :: rest ++ [0] = e ++ 0x2f :: (rest ++ [0]) := by
        rw [List.append_assoc, List.cons_append]
      have len : (0x2f :: (e ++ 0x2f :: (rest ++ [0]))).length - (0x2f :: (rest ++ [0])).length - 1 = e.length := by
        simp only [List.length_cons, List.length_append, List.length_nil]
        omega
      rw [List.length_append, List.length_cons] at enough
      have later := ih rest (ptr + e.length + shrtSize) (putElement m ptr (e ++ 0x2f :: (rest ++ [0])) e.length)
        after (by omega)
      have next := Cells.memcpy_append m ptr (split (BitVec.ofNat 16 e.length) shrtSize ++ e)
        (pathWire (rest.splitOn 0x2f))
      rw [List.length_append, Bytes.length_split, Nat.add_comm shrtSize, ← Nat.add_assoc] at next
      simp only [splitElements, whole, List.tail_cons, found, len, later, first]
      rw [putElement_eq, next]
      rfl

section Wire

variable (es : List (List (BitVec 8)))

theorem length_pathWire : (pathWire es).length = (joinSlash es).length + es.length := by
  induction es with
  | nil => rfl
  | cons e es ih =>
    have two : shrtSize = 2 := rfl
    rw [pathWire, joinSlash] at ih ⊢
    rw [List.flatMap_cons, List.flatMap_cons, List.length_append, List.length_append, List.length_append,
      Bytes.length_split, List.length_cons, List.length_cons, ih]
    omega

theorem count_joinSlash (free : ∀ e ∈ es, 0x2f ∉ e) : (joinSlash es).count 0x2f = es.length := by
  induction es with
  | nil => rfl
  | cons e es ih =>
    obtain ⟨first, others⟩ := List.forall_mem_cons.mp free
    have rest := ih others
    rw [joinSlash] at rest ⊢
    rw [List.flatMap_cons, List.cons_append, List.count_cons_self, List.count_append, rest,
      List.count_eq_zero_of_not_mem first, Nat.zero_add, List.length_cons]

end Wire

section Parse

variable {m : Store} {ptr : Nat}

/-- What is read at an element. -/
theorem element_wire (e rest : List (BitVec 8))
    (is : m.bytes ptr (split (BitVec.ofNat 16 e.length) shrtSize ++ e ++ rest).length =
      split (BitVec.ofNat 16 e.length) shrtSize ++ e ++ rest) :
    (getUshort m ptr).toNat = e.length % 65536 ∧ (pstringAt m ptr).1 = e.take (e.length % 65536) ∧
      m.bytes (ptr + shrtSize + e.length) rest.length = rest := by
  obtain ⟨front, behind⟩ := Store.bytes_append is
  obtain ⟨count, text⟩ := Store.bytes_append front
  rw [Bytes.length_split] at count text
  rw [List.length_append, Bytes.length_split, ← Nat.add_assoc] at behind
  have value : getUshort m ptr = BitVec.ofNat 16 e.length := by
    have small := (BitVec.ofNat 16 e.length).isLt
    have read : m.bytes ptr 2 = split (BitVec.ofNat 16 e.length) 2 := count
    rw [getUshort_eq, read, Bytes.combine_split _ _ small]
  have length : (getUshort m ptr).toNat = e.length % 65536 := by
    rw [value, BitVec.toNat_ofNat]
  refine ⟨length, ?_, behind⟩
  have short := Nat.mod_le e.length 65536
  have read : m.bytes (ptr + shrtSize) (getUshort m ptr).toNat = e.take (e.length % 65536) := by
    have part := m.take_bytes (ptr + shrtSize) e.length (e.length % 65536)
    rw [text, Nat.min_eq_left short] at part
    rw [length, part]
  exact read

theorem elementsAt_iff (es : List (List (BitVec 8))) (free : ∀ e ∈ es, 0x2f ∉ e)
    (is : m.bytes ptr (pathWire es).length = pathWire es) :
    joinSlash (elementsAt m ptr es.length) = joinSlash es ↔ ∀ e ∈ es, e.length < 65536 := by
  induction es generalizing ptr with
  | nil => exact iff_of_true rfl fun e member => absurd member List.not_mem_nil
  | cons e es ih =>
    obtain ⟨first, others⟩ := List.forall_mem_cons.mp free
    rw [pathWire, List.flatMap_cons] at is
    obtain ⟨length, text, behind⟩ := element_wire e _ is
    have step : joinSlash (elementsAt m ptr (e :: es).length) = 0x2f :: e.take (e.length % 65536) ++
        joinSlash (elementsAt m (ptr + pstrlen m ptr) es.length) := by
      rw [List.length_cons, elementsAt, pathAt, List.map_cons, joinSlash, List.flatMap_cons, text]
      rfl
    rw [step, List.forall_mem_cons]
    by_cases short : e.length < 65536
    · have next : ptr + pstrlen m ptr = ptr + shrtSize + e.length := by
        rw [pstrlen, length, Nat.mod_eq_of_lt short, Nat.add_assoc]
      rw [and_iff_right short, Nat.mod_eq_of_lt short, List.take_length, next, ← ih others behind]
      exact List.append_right_inj (0x2f :: e)
    · refine iff_of_false (fun same => ?_) fun all => short all.1
      -- A slash, or the end, where the rest of the element should be.
      have cut := Nat.mod_lt e.length (by decide : 0 < 65536)
      have tail : joinSlash (elementsAt m (ptr + pstrlen m ptr) es.length) =
          e.drop (e.length % 65536) ++ joinSlash es := by
        have parts := List.take_append_drop (e.length % 65536) e
        have whole : joinSlash (e :: es) = 0x2f :: e.take (e.length % 65536) ++
            (e.drop (e.length % 65536) ++ joinSlash es) := by
          rw [List.cons_append, ← List.append_assoc, parts]
          rfl
        exact List.append_cancel_left (same.trans whole)
      cases left : e.drop (e.length % 65536) with
      | nil =>
        have none := List.drop_eq_nil_iff.mp left
        omega
      | cons c cs =>
        have member : c ∈ e := List.mem_of_mem_drop (left ▸ List.mem_cons_self)
        rw [left] at tail
        cases parsed : elementsAt m (ptr + pstrlen m ptr) es.length with
        | nil =>
          rw [parsed] at tail
          cases tail
        | cons f fs =>
          rw [parsed] at tail
          have slash : 0x2f = c := (List.cons.inj tail).1
          exact first (slash ▸ member)

theorem pathTotal_eq (es : List (List (BitVec 8))) (short : ∀ e ∈ es, e.length < 65536) (some_ : es ≠ [])
    (is : m.bytes ptr (pathWire es).length = pathWire es) :
    pathTotal m ptr es.length + 1 = (joinSlash es).length := by
  induction es generalizing ptr with
  | nil => exact absurd rfl some_
  | cons e es ih =>
    obtain ⟨first, others⟩ := List.forall_mem_cons.mp short
    rw [pathWire, List.flatMap_cons] at is
    obtain ⟨length, -, behind⟩ := element_wire e _ is
    have next : ptr + pstrlen m ptr = ptr + shrtSize + e.length := by
      rw [pstrlen, length, Nat.mod_eq_of_lt first, Nat.add_assoc]
    rw [List.length_cons, pathTotal, length, Nat.mod_eq_of_lt first, next, joinSlash, List.flatMap_cons, List.length_append,
      List.length_cons]
    cases es with
    | nil => rfl
    | cons f fs =>
      have later := ih others (List.cons_ne_nil f fs) behind
      rw [joinSlash] at later
      rw [if_neg (by rw [List.length_cons]; omega)]
      omega

end Parse

theorem nul_ne_root {s : List (BitVec 8)} (other : s ≠ [0x2f]) : s ++ [0] ≠ [0x2f, 0] := fun is =>
  other (List.append_cancel_right (show s ++ [0] = [0x2f] ++ [0] from is))

section Split

variable (host : Allocator) (s : CStr)

section Calls

variable (m : Store) (wname : Nat) (other : s.1 ≠ [0x2f])

include other

theorem fcallPathSplit_many (many : shrtMax < s.1.count 0x2f) :
    fcallPathSplit host ⟨m, []⟩ wname (s.1 ++ [0]) = some ⟨-1, wname, ⟨m, []⟩, none⟩ := by
  have path := nul_ne_root other
  simp only [fcallPathSplit, path, if_false, strcnt_eq s.2, strlen_eq s.2, many, if_true]

variable (few : s.1.count 0x2f ≤ shrtMax)

include few

theorem fcallPathSplit_full (full : host.malloc (s.1.length + s.1.count 0x2f * shrtSize) = 0) :
    fcallPathSplit host ⟨m, []⟩ wname (s.1 ++ [0]) = some ⟨-1, 0, ⟨m, []⟩, none⟩ := by
  have path := nul_ne_root other
  simp only [fcallPathSplit, path, if_false, strcnt_eq s.2, strlen_eq s.2, Nat.not_lt.mpr few, full, if_true]

variable (room : host.malloc (s.1.length + s.1.count 0x2f * shrtSize) ≠ 0)

include room

theorem fcallPathSplit_bare (bare : 0x2f ∉ s.1) : fcallPathSplit host ⟨m, []⟩ wname (s.1 ++ [0]) = none := by
  have path := nul_ne_root other
  simp only [fcallPathSplit, path, if_false, strcnt_eq s.2, strlen_eq s.2, Nat.not_lt.mpr few, room,
    strchr_none s.2 0x2f bare]

theorem fcallPathSplit_slash (e rest : List (BitVec 8)) (is : s.1 = e ++ 0x2f :: rest) (free : 0x2f ∉ e) :
    fcallPathSplit host ⟨m, []⟩ wname (s.1 ++ [0]) = some ⟨s.1.count 0x2f,
      host.malloc (s.1.length + s.1.count 0x2f * shrtSize),
      Cells.memcpy ⟨m, []⟩ (host.malloc (s.1.length + s.1.count 0x2f * shrtSize)) (pathWire (rest.splitOn 0x2f)),
      some (host.malloc (s.1.length + s.1.count 0x2f * shrtSize), s.1.length + s.1.count 0x2f * shrtSize)⟩ := by
  have path := nul_ne_root other
  have nonzero : 0 ∉ e ∧ 0 ∉ rest := by
    have all := s.2
    rw [is] at all
    exact ⟨fun member => all (List.mem_append_left _ member),
      fun member => all (List.mem_append_right e (List.mem_cons_of_mem _ member))⟩
  have found : strchr 0x2f (s.1 ++ [0]) = some (some (0x2f :: (rest ++ [0]))) := by
    rw [is, List.append_assoc]
    exact strchr_some nonzero.1 0x2f free (by decide) (rest ++ [0])
  have enough : rest.length < (s.1 ++ [0]).length := by
    rw [is]
    simp only [List.length_append, List.length_cons]
    omega
  simp only [fcallPathSplit, path, if_false, strcnt_eq s.2, strlen_eq s.2, Nat.not_lt.mpr few, room, found,
    splitElements_eq _ rest _ _ nonzero.2 enough, Option.map_some]

end Calls

theorem splits_absolute (other : s.1 ≠ [0x2f]) (few : s.1.count 0x2f ≤ shrtMax)
    (room : host.malloc (s.1.length + s.1.count 0x2f * shrtSize) ≠ 0) (rest : List (BitVec 8)) (is : s.1 = 0x2f :: rest) :
    Splits host s ↔ ∀ e ∈ rest.splitOn 0x2f, e.length < 65536 := by
  obtain ⟨join, free⟩ := joinSlash_splitOn rest
  have count : s.1.count 0x2f = (rest.splitOn 0x2f).length := by
    rw [← count_joinSlash _ free, join, is]
  have length : (pathWire (rest.splitOn 0x2f)).length = s.1.length + s.1.count 0x2f := by
    rw [length_pathWire, join, ← is, count]
  have guard : s.1.head? = some 0x2f ∧ s.1.count 0x2f ≤ shrtMax := ⟨by rw [is]; rfl, few⟩
  have call (m : Store) (wname : Nat) := fcallPathSplit_slash host s m wname other few room [] rest is List.not_mem_nil
  have wire (m : Store) (block : Nat) := m.bytes_write block (pathWire (rest.splitOn 0x2f))
  have back (m : Store) (block : Nat) := elementsAt_iff (rest.splitOn 0x2f) free (wire m block)
  constructor
  · intro splits
    obtain ⟨r, called, holds⟩ := splits (fun _ => 0) 0
    obtain rfl := Option.some.inj ((call (fun _ => 0) 0).symm.trans called)
    rw [if_neg other, if_pos guard] at holds
    obtain ⟨-, same, -⟩ := holds room
    refine (back (fun _ => 0) (host.malloc (s.1.length + s.1.count 0x2f * shrtSize))).mp ?_
    rw [← count, join, ← is]
    exact same
  · intro short m wname
    refine ⟨_, call m wname, ?_⟩
    rw [if_neg other, if_pos guard]
    intro _
    refine ⟨rfl, ?_, ⟨_, rfl, fun a member => ?_⟩, fun fits => ?_⟩
    · have same := (back m (host.malloc (s.1.length + s.1.count 0x2f * shrtSize))).mpr short
      rw [← count, join, ← is] at same
      exact same
    · have there := List.mem_range'_1.mp member
      have bound : s.1.length + s.1.count 0x2f ≤ s.1.length + s.1.count 0x2f * shrtSize :=
        Nat.add_le_add_left (Nat.le_mul_of_pos_right _ (by decide)) _
      rw [length] at there
      exact ⟨there.1, there.2.trans_le (Nat.add_le_add_left bound _)⟩
    · have total := pathTotal_eq (rest.splitOn 0x2f) short (List.splitOn_ne_nil 0x2f rest)
        (wire m (host.malloc (s.1.length + s.1.count 0x2f * shrtSize)))
      rw [join, ← is, ← count] at total
      have max : shrtMax = 32767 := rfl
      have narrow : (BitVec.ofNat 16 (s.1.count 0x2f)).toNat = s.1.count 0x2f := by
        rw [BitVec.toNat_ofNat, Nat.mod_eq_of_lt (by omega)]
      have size : pathTotal (m.write (host.malloc (s.1.length + s.1.count 0x2f * shrtSize)) (pathWire (rest.splitOn 0x2f)))
          (host.malloc (s.1.length + s.1.count 0x2f * shrtSize)) (s.1.count 0x2f) = s.1.length - 1 := by
        omega
      rw [fcallPathSize, narrow]
      exact (if_neg (by rw [Cells.memcpy, size]; omega)).trans size

theorem fcallPathSplit_splits_iff : Splits host s ↔ Splittable host s := by
  by_cases root : s.1 = [0x2f]
  · refine iff_of_true (fun m wname => ⟨⟨0, 0, ⟨m, []⟩, none⟩, ?_, ?_⟩) (.inr (.inr ?_))
    · rw [root]
      rfl
    · rw [if_pos root]
    · rw [root]
      decide
  by_cases few : s.1.count 0x2f ≤ shrtMax
  swap
  · have guard : ¬ (s.1.head? = some 0x2f ∧ s.1.count 0x2f ≤ shrtMax) := fun both => few both.2
    refine iff_of_true (fun m wname => ?_) (.inr (.inl (Nat.lt_of_not_le few)))
    refine ⟨_, fcallPathSplit_many host s m wname root (Nat.lt_of_not_le few), ?_⟩
    rw [if_neg root, if_neg guard]
    exact ⟨rfl, rfl⟩
  by_cases full : host.malloc (s.1.length + s.1.count 0x2f * shrtSize) = 0
  · refine iff_of_true (fun m wname => ⟨_, fcallPathSplit_full host s m wname root few full, ?_⟩) (.inl full)
    rw [if_neg root]
    split_ifs
    · exact fun room => absurd full room
    · exact ⟨rfl, rfl⟩
  have remains : Splittable host s ↔ s.1.head? = some 0x2f ∧ ∀ e ∈ s.1.splitOn 0x2f, e.length < 65536 := by
    rw [Splittable, or_iff_right full, or_iff_right (Nat.not_lt.mpr few)]
  rw [remains]
  by_cases slash : 0x2f ∈ s.1
  · obtain ⟨e, rest, is, free⟩ := List.eq_append_cons_of_mem slash
    cases e with
    | nil =>
      have split : s.1.splitOn 0x2f = [] :: rest.splitOn 0x2f := by
        rw [is]
        exact List.splitOn_append_cons_self_of_not_mem free rest
      have head : s.1.head? = some 0x2f := by
        rw [is]
        rfl
      rw [splits_absolute host s root few full rest is, and_iff_right head, split, List.forall_mem_cons,
        and_iff_right (by decide)]
    | cons c cs =>
      have head : ¬ s.1.head? = some 0x2f := by
        rw [is]
        intro same
        exact free (Option.some.inj same ▸ List.mem_cons_self)
      refine iff_of_false (fun splits => ?_) fun both => head both.1
      obtain ⟨r, called, holds⟩ := splits (fun _ => 0) 0
      obtain rfl := Option.some.inj
        ((fcallPathSplit_slash host s (fun _ => 0) 0 root few full (c :: cs) rest is free).symm.trans called)
      rw [if_neg root, if_neg fun both => head both.1] at holds
      have negative : ((s.1.count 0x2f : Nat) : Int) = -1 := holds.1
      omega
  · refine iff_of_false (fun splits => ?_) fun both => slash (List.mem_of_head? both.1)
    obtain ⟨r, called, -⟩ := splits (fun _ => 0) 0
    rw [fcallPathSplit_bare host s (fun _ => 0) 0 root few full slash] at called
    cases called

end Split

-- "file", without its slash.
theorem fcallPathSplit_relative : ¬ ∀ (host : Allocator) (s : CStr), Splits host s := by
  intro splits
  obtain ⟨r, called, -⟩ := splits ⟨fun n => if n = 0 then 0 else 4096, rfl⟩ ⟨[0x66, 0x69, 0x6c, 0x65], by decide⟩
    (fun _ => 0) 0
  rw [fcallPathSplit_bare _ _ _ _ (by decide) (by decide) (by decide) (by decide)] at called
  cases called

end Anthill
