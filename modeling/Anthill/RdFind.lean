import Anthill.Ustar

set_option autoImplicit false

namespace Anthill

open Bytes (Store)

-- The header at which the loop stops.
def rdFindLoop (m : Store) (path : Nat) : Nat → Nat → Option Nat
  | 0, _ => none
  | fuel + 1, header =>
    if isHeader m header then
      if memcmp (fun i => m (path + shrtSize + i)) (fun i => m (header + 1 + i)) (getUshort m path).toNat = 0 then some header
      else rdFindLoop m path fuel (header + sizeofHeader * getBlocks (rdGetSize m header))
    else some header

-- The header of a path, or NULL.
def rdFind (m : Store) (path fuel : Nat) : Option Nat :=
  (rdFindLoop m path fuel ramdisk).map fun header => if isHeader m header then header else 0

def dropSlash (s : List Byte) : List Byte := if s.getLast? = some 0x2f then s.dropLast else s

/-- The entry has the path, but for a '/' at their ends. -/
def Entry.named (path : List Byte) (e : Entry) : Bool := dropSlash e.name.1.tail = dropSlash path

-- What is in memory behind the dot of the name begins with the path.
def begins (m : Store) (path : List Byte) (x : Nat × Entry) : Bool := m.bytes (x.1 + 1) path.length = path

/-- rd_find returns the first header that has the path, or NULL if there is none. -/
def RdFinds (m : Store) (path : Nat) (es : List Entry) : Prop :=
  ∃ n, ∀ fuel, n ≤ fuel → rdFind m path fuel =
    some (((headers ramdisk es).find? fun x => x.2.named (pstringAt m path).1).elim 0 Prod.fst)

/-- No entry before the one with the path begins with it, and that one does. -/
structure Unshadowed (m : Store) (path : List Byte) (es : List Entry) : Prop where
  before : ∀ x, x ∈ (headers ramdisk es).takeWhile (fun x => !x.2.named path) → begins m path x = false
  found : ∀ x, (headers ramdisk es).find? (fun x => x.2.named path) = some x → begins m path x = true

theorem find?_same {A : Type} (p q : A → Bool) (l : List A) : l.find? p = l.find? q ↔
    (∀ x, x ∈ l.takeWhile (fun x => !q x) → p x = false) ∧ ∀ x, l.find? q = some x → p x = true := by
  induction l with
  | nil => simp
  | cons a l ih =>
    rw [List.find?_cons, List.find?_cons, List.takeWhile_cons]
    cases hq : q a with
    | true =>
      cases hp : p a with
      | true => simp [hp]
      | false =>
        simp only [Bool.not_true, Bool.false_eq_true, if_false, List.not_mem_nil, false_implies, implies_true, true_and,
          Option.some.injEq, forall_eq', hp, iff_false]
        intro found
        rw [List.find?_some found] at hp
        cases hp
    | false =>
      simp only [Bool.not_false, if_true, List.forall_mem_cons]
      cases hp : p a with
      | true =>
        simp only [Bool.true_eq_false, false_and, iff_false]
        intro found
        rw [List.find?_some found.symm] at hq
        cases hq
      | false => simpa using ih

section Find

variable {m : Store} {path : Nat} {es : List Entry}

theorem begins_iff {h : Nat} {e : Entry} :
    memcmp (fun i => m (path + shrtSize + i)) (fun i => m (h + 1 + i)) (getUshort m path).toNat = 0 ↔
      begins m (pstringAt m path).1 (h, e) = true := by
  rw [memcmp_bytes, begins, decide_eq_true_iff, pstringAt, Store.length_bytes]
  exact eq_comm

theorem rdFindLoop_archive {h : Nat} (archive : Archive m h es) (nonnull : h ≠ 0) {fuel : Nat} (enough : es.length < fuel) :
    ((rdFindLoop m path fuel h).map fun header => if isHeader m header then header else 0) =
      some (((headers h es).find? (begins m (pstringAt m path).1)).elim 0 Prod.fst) := by
  induction es generalizing h fuel with
  | nil =>
    obtain ⟨fuel, rfl⟩ := Nat.exists_eq_add_of_lt enough
    have ends : isHeader m h = false := archive
    rw [rdFindLoop, ends]
    simp [ends, headers]
  | cons e es ih =>
    obtain ⟨fuel, rfl⟩ : ∃ n, fuel = n + 1 := ⟨fuel - 1, by omega⟩
    rw [List.length_cons] at enough
    rw [rdFindLoop, if_pos archive.1.magic, headers, List.find?_cons]
    by_cases match' : begins m (pstringAt m path).1 (h, e) = true
    · rw [if_pos (begins_iff.mpr match'), match']
      simp [archive.1.magic]
    · rw [if_neg (mt begins_iff.mp match'), archive.1.next, Bool.eq_false_of_not_eq_true match']
      have next := e.le_next h
      exact ih archive.2 (by omega) (by omega)

end Find

theorem headers_answer_inj {h : Nat} {es : List Entry} (nonnull : h ≠ 0) {a b : Option (Nat × Entry)}
    (ha : ∀ x, a = some x → x ∈ headers h es) (hb : ∀ x, b = some x → x ∈ headers h es)
    (same : a.elim 0 Prod.fst = b.elim 0 Prod.fst) : a = b := by
  have positive (x : Nat × Entry) (hx : x ∈ headers h es) : x.1 ≠ 0 := by
    have least := headers_le x hx
    omega
  cases a with
  | none =>
    cases b with
    | none => rfl
    | some y => exact absurd same.symm (positive y (hb y rfl))
  | some x =>
    cases b with
    | none => exact absurd same (positive x (ha x rfl))
    | some y => exact congrArg some (headers_inj x y (ha x rfl) (hb y rfl) same)

/-- A path without a NUL is compared with the names only. -/
theorem begins_name_iff {m : Store} {x : Nat × Entry} (at' : x.2.At m x.1) {path : List Byte} (nonzero : 0 ∉ path) :
    begins m path x = true ↔ path <+: x.2.name.1.tail := by
  have tail := at'.tail
  have size : x.2.name.1.length = x.2.name.1.tail.length + 1 := by
    have read := congrArg List.length tail
    rwa [Store.length_bytes, List.length_append] at read
  rw [begins, decide_eq_true_iff]
  exact bytes_prefix_iff (size ▸ tail) nonzero

theorem rdFinds_iff {m : Store} {es : List Entry} (archive : Archive m ramdisk es) (path : Nat) :
    RdFinds m path es ↔ (headers ramdisk es).find? (begins m (pstringAt m path).1) =
      (headers ramdisk es).find? fun x => x.2.named (pstringAt m path).1 := by
  have loop {fuel : Nat} (enough : es.length < fuel) :
      ((rdFindLoop m path fuel ramdisk).map fun header => if isHeader m header then header else 0) = _ :=
    rdFindLoop_archive archive (by decide) enough
  constructor
  · rintro ⟨n, found⟩
    have answers := (loop (Nat.lt_succ_of_le (Nat.le_max_right n es.length))).symm.trans
      (found _ (Nat.le_succ_of_le (Nat.le_max_left n es.length)))
    exact headers_answer_inj (by decide) (fun x is => List.mem_of_find?_eq_some is)
      (fun x is => List.mem_of_find?_eq_some is) (Option.some.inj answers)
  · intro same
    exact ⟨es.length + 1, fun fuel enough => (loop enough).trans (by rw [same])⟩

/-- rd_find finds a path exactly if no other entry comes between. -/
theorem rdFind_exact_iff {m : Store} {es : List Entry} (archive : Archive m ramdisk es) (path : Nat) :
    RdFinds m path es ↔ Unshadowed m (pstringAt m path).1 es := by
  rw [rdFinds_iff archive, find?_same]
  exact ⟨fun ⟨before, found⟩ => ⟨before, found⟩, fun ⟨before, found⟩ => ⟨before, found⟩⟩

-- "./bootx" and "/boot".

def bootxFile : Entry :=
  { bootFile with
    name := ⟨[0x2e, 0x2f, 0x62, 0x6f, 0x6f, 0x74, 0x78], by decide⟩
    dot := rfl
    short := by decide }

def bootPath : List Byte := [0x2f, 0x62, 0x6f, 0x6f, 0x74]

def bootMemory (es : List Entry) : Store := (archiveImage ramdisk es).write 4096 ([5, 0] ++ bootPath)

theorem bootMemory_archive (es : List Entry) : Archive (bootMemory es) ramdisk es := by
  refine (archiveImage_archive ramdisk es).congr fun x low => Store.write_outside _ _ _ x (.inr (Nat.le_trans ?_ low))
  decide

theorem bootMemory_path (es : List Entry) : (pstringAt (bootMemory es) 4096).1 = bootPath := by
  have stored := Store.bytes_append (Store.bytes_write (archiveImage ramdisk es) 4096 ([5, 0] ++ bootPath))
  have length : getUshort (bootMemory es) 4096 = 5 := by
    rw [getUshort_eq]
    exact (congrArg (Bytes.combine 16) stored.1).trans (by decide)
  show (bootMemory es).bytes (4096 + shrtSize) (getUshort (bootMemory es) 4096).toNat = bootPath
  rw [length]
  exact stored.2

theorem rdFind_exact_boot : RdFinds (bootMemory [bootFile, bootxFile]) 4096 [bootFile, bootxFile] := by
  refine (rdFind_exact_iff (bootMemory_archive _) 4096).mpr ?_
  rw [bootMemory_path]
  refine ⟨fun x member => absurd (show x ∈ [] from member) List.not_mem_nil, fun x found => ?_⟩
  have at' := (bootMemory_archive [bootFile, bootxFile]).at_headers x (List.mem_of_find?_eq_some found)
  obtain rfl := Option.some.inj found
  exact (begins_name_iff at' (by decide)).mpr (by decide)

/-- A name that the path is a prefix of hides the path. -/
theorem rdFind_shadowed : ¬ ∀ (m : Store) (es : List Entry), Archive m ramdisk es → ∀ path, RdFinds m path es := by
  intro claim
  have same := (rdFinds_iff (bootMemory_archive [bootxFile, bootFile]) 4096).mp (claim _ _ (bootMemory_archive _) 4096)
  rw [bootMemory_path, find?_same] at same
  have first : (ramdisk, bootxFile) ∈ (headers ramdisk [bootxFile, bootFile]).takeWhile fun x => !x.2.named bootPath :=
    List.mem_cons_self ..
  have at' := (bootMemory_archive [bootxFile, bootFile]).1
  have begins : begins _ bootPath (ramdisk, bootxFile) = true :=
    (begins_name_iff (x := (ramdisk, bootxFile)) at' (by decide)).mpr (by decide)
  rw [same.1 _ first] at begins
  cases begins

end Anthill
