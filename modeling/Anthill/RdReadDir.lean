import Anthill.RdStat

set_option autoImplicit false

namespace Anthill

open Bytes (Store split Delimited)

def rdtFile : Byte := 0x30

def rdtDir : Byte := 0x35

/-- Whether the header at `child` is taken for an immediate child of the one at `parent`. A name without an end in its
header has no answer. -/
def isChild (m : Store) (parent child : Nat) : Option Bool :=
  match strcnt 0x2f (m.bytes parent sizeofHeader), strcnt 0x2f (m.bytes child sizeofHeader),
    strlen (m.bytes parent sizeofHeader) with
  | some parentDepth, some childDepth, some len =>
    if memcmp (fun i => m (parent + i)) (fun i => m (child + i)) len ≠ 0 then some false
    -- A difference below 0 wraps, and is neither 0 nor 1 then.
    else if m (child + headerTypeOff) = rdtDir ∧ (childDepth : Int) - parentDepth ≠ 1 then some false
    else if m (child + headerTypeOff) = rdtFile ∧ (childDepth : Int) - parentDepth ≠ 0 then some false
    else some true
  | _, _, _ => none

/-- How rd_read_dir ends: with the bytes that it has put at the buffer, whose number it returns, or as a call of
rd_get_stat ends. -/
inductive DirRead where
  | unfinished
  | overread
  | fault
  | ret (buffer : List Byte)
deriving DecidableEq

-- The loop, from a header on.
def rdReadDirLoop (m : Store) (allocated : Bool) (header : Nat) (offset : BitVec 64) (count : BitVec 32) (n : Nat) :
    Nat → Nat → List Byte → BitVec 32 → DirRead
  | 0, _, _, _ => .unfinished
  | fuel + 1, child, buffer, index =>
    if isHeader m child then
      let next := child + sizeofHeader * getBlocks (rdGetSize m child)
      -- What follows once the child at the index has been dealt with.
      let rest (buffer : List Byte) :=
        if (index + 1).setWidth 64 = offset - count.setWidth 64 then .ret buffer
        else rdReadDirLoop m allocated header offset count n fuel next buffer (index + 1)
      match isChild m header child with
      | none => .overread
      | some false => rdReadDirLoop m allocated header offset count n fuel next buffer index
      | some true =>
        if offset < index.setWidth 64 then
          match rdGetStat m allocated child (n - buffer.length) with
          | .overread => .overread
          | .fault => .fault
          | .ret res stat _ => if res = 0 then .ret buffer else rest (buffer ++ stat)
        else rest buffer
    else .ret buffer

def rdReadDir (m : Store) (allocated : Bool) (fuel header : Nat) (offset : BitVec 64) (count : BitVec 32) (n : Nat) :
    DirRead :=
  rdReadDirLoop m allocated header offset count n fuel (header + sizeofHeader * getBlocks (rdGetSize m header)) [] 0

/-- An entry whose name is made of components, each behind a slash, with a slash behind those of a directory. -/
structure Node extends Entry where
  path : List (List Byte)
  parts : ∀ c, c ∈ path → c ≠ [] ∧ 0x2f ∉ c
  named' : name.1 = 0x2e :: (joinSlash path ++ if type = rdtDir then [0x2f] else [])
  file : type ≠ rdtDir → path ≠ []

/-- The immediate children of a directory. -/
def Node.childOf (p c : Node) : Bool := p.path <+: c.path ∧ c.path.length = p.path.length + 1

/-- What is taken for an immediate child: of the types but directories and files, all that is below. -/
def Node.accepts (p c : Node) : Bool :=
  p.path <+: c.path ∧ if c.type = rdtDir ∨ c.type = rdtFile then c.path.length = p.path.length + 1
    else p.path.length < c.path.length

/-- What a stat record holds: the qid, the length and the name. -/
abbrev StatRecord := Qid × BitVec 64 × Bytes.Counted 16 Byte

def StatRecord.wire (r : StatRecord) : List Byte := r.1.wire ++ (split r.2.1 sizeofLength ++ pstringWire r.2.2)

theorem Node.last_short (c : Node) : (c.path.getLastD []).length < headerNameSize := by
  refine Nat.lt_of_le_of_lt ?_ c.toEntry.short
  rcases List.eq_nil_or_concat c.path with none | ⟨front, last, is⟩
  · rw [none]
    exact Nat.zero_le _
  · rw [c.named', is, List.concat_eq_append, List.getLastD_concat, joinSlash, List.flatMap_append]
    simp only [List.flatMap_cons, List.flatMap_nil, List.length_cons, List.length_append]
    omega

/-- The stat record of a node below the root. -/
def Node.record (c : Node) : StatRecord :=
  (⟨rdType c.type, 0, 0⟩, BitVec.ofNat 64 c.size, ⟨c.path.getLastD [], Nat.lt_trans c.last_short (by decide)⟩)

-- How rd_read_dir ends when it packs records behind the buffer.
def DirRead.packed (buffer : List Byte) : Option (List Byte) → DirRead
  | none => .fault
  | some bytes => .ret (buffer ++ bytes)

-- The records that fit in `n` bytes. One that has room for its fixed part only ends in a NULL.
def pack : Nat → List StatRecord → Option (List Byte)
  | _, [] => some []
  | n, r :: rs =>
    if n < sizeofQid + sizeofLength then some []
    else if n < r.wire.length then none
    else (pack (n - r.wire.length) rs).map fun bytes => r.wire ++ bytes

section Names

variable {a b x y : List Byte}

theorem append_prefix_iff (ha : 0x2f ∉ a) (hb : 0x2f ∉ b) (hx : x.head? = some 0x2f)
    (hy : ∀ c, y.head? = some c → c = 0x2f) : a ++ x <+: b ++ y ↔ a = b ∧ x <+: y := by
  induction a generalizing b with
  | nil =>
    cases b with
    | nil => simp
    | cons d b =>
      obtain ⟨rest, rfl⟩ := List.head?_eq_some_iff.mp hx
      have other := (List.ne_and_not_mem_of_not_mem_cons hb).1
      constructor
      · exact fun begins => absurd (List.cons_prefix_cons.mp begins).1 other
      · rintro ⟨is, -⟩
        cases is
  | cons c a ih =>
    obtain ⟨other, ha⟩ := List.ne_and_not_mem_of_not_mem_cons ha
    cases b with
    | nil =>
      simp only [List.nil_append, List.cons_append, reduceCtorEq, false_and, iff_false]
      intro begins
      obtain ⟨rest, is⟩ := begins
      exact other (hy c (by rw [← is]; rfl)).symm
    | cons d b =>
      obtain ⟨-, hb⟩ := List.ne_and_not_mem_of_not_mem_cons hb
      rw [List.cons_append, List.cons_append, List.cons_prefix_cons, ih ha hb, List.cons.injEq, and_assoc]

theorem joinSlash_head (cs : List (List Byte)) (t : List Byte) (ht : t = [] ∨ t = [0x2f]) :
    ∀ c, (joinSlash cs ++ t).head? = some c → c = 0x2f := by
  intro c is
  cases cs with
  | nil =>
    rcases ht with rfl | rfl
    · cases is
    · exact (Option.some.inj is).symm
  | cons a cs => exact (Option.some.inj is).symm

/-- The name of a directory begins the names below it, and its own. -/
theorem joinSlash_prefix_iff {p c : List (List Byte)} (hp : ∀ a, a ∈ p → a ≠ [] ∧ 0x2f ∉ a)
    (hc : ∀ a, a ∈ c → a ≠ [] ∧ 0x2f ∉ a) {t : List Byte} (ht : t = [] ∨ t = [0x2f]) :
    joinSlash p ++ [0x2f] <+: joinSlash c ++ t ↔ p <+: c ∧ (p.length < c.length ∨ t = [0x2f]) := by
  induction p generalizing c with
  | nil =>
    cases c with
    | nil => rcases ht with rfl | rfl <;> simp [joinSlash]
    | cons b c => simp [joinSlash]
  | cons a p ih =>
    cases c with
    | nil =>
      have long := List.length_pos_of_ne_nil (hp a (List.mem_cons_self ..)).1
      simp only [List.prefix_nil, reduceCtorEq, false_and, iff_false]
      intro begins
      have short := begins.length_le
      rcases ht with rfl | rfl <;> simp [joinSlash] at short
    | cons b c =>
      have rest := ih (fun a ha => hp a (List.mem_cons_of_mem _ ha)) (fun a ha => hc a (List.mem_cons_of_mem _ ha))
      have front : (joinSlash p ++ [0x2f]).head? = some 0x2f := by cases p <;> rfl
      have first := append_prefix_iff (hp a (List.mem_cons_self ..)).2 (hc b (List.mem_cons_self ..)).2 front
        (joinSlash_head c t ht)
      simp only [joinSlash, List.flatMap_cons, List.cons_append, List.append_assoc, List.cons_prefix_cons, true_and]
        at first rest ⊢
      rw [first, rest, List.length_cons, List.length_cons, and_assoc]
      simp only [Nat.add_lt_add_iff_right]

end Names

theorem strcnt_found {s rest : List Byte} (nonzero : 0 ∉ s) (c : Byte) : strcnt c (s ++ 0 :: rest) = some (s.count c) := by
  induction s with
  | nil => rfl
  | cons d ds ih =>
    obtain ⟨first, later⟩ := List.ne_and_not_mem_of_not_mem_cons nonzero
    rw [List.cons_append, strcnt, if_neg first.symm, ih later, List.count_cons, Option.map_some]
    by_cases same : c = d
    · rw [if_pos same, if_pos (beq_iff_eq.mpr same.symm)]
    · rw [if_neg same, if_neg (mt beq_iff_eq.mp (Ne.symm same)), Nat.add_zero]

section Nodes

variable {m : Store} {h hc : Nat} {p c : Node}

theorem Node.ends (c : Node) : (if c.type = rdtDir then [0x2f] else [] : List Byte) = [] ∨
    (if c.type = rdtDir then [0x2f] else [] : List Byte) = [0x2f] := by
  split_ifs
  · exact .inr rfl
  · exact .inl rfl

theorem Node.depth (c : Node) : c.name.1.count 0x2f = c.path.length + if c.type = rdtDir then 1 else 0 := by
  have slashes := count_joinSlash c.path fun e he => (c.parts e he).2
  rw [c.named', List.count_cons_of_ne (by decide), List.count_append, slashes]
  split_ifs <;> rfl

/-- A directory's name begins the names of what is below it, and of directories with its name. -/
theorem Node.prefix_iff (dir : p.type = rdtDir) :
    p.name.1 <+: c.name.1 ↔ p.path <+: c.path ∧ (p.path.length < c.path.length ∨ c.type = rdtDir) := by
  rw [p.named', c.named', if_pos dir, List.cons_prefix_cons, joinSlash_prefix_iff p.parts c.parts c.ends]
  simp only [true_and]
  by_cases also : c.type = rdtDir
  · simp [also]
  · simp [also]

/-- _is_child lets pass the children, and links further down. -/
theorem isChild_eq (dir : p.type = rdtDir) (hp : p.At m h) (hc' : c.At m hc) : isChild m h hc = some (p.accepts c) := by
  obtain ⟨_, parent⟩ := hp.whole
  obtain ⟨_, child⟩ := hc'.whole
  have compared : memcmp (fun i => m (h + i)) (fun i => m (hc + i)) p.name.1.length = 0 ↔
      p.path <+: c.path ∧ (p.path.length < c.path.length ∨ c.type = rdtDir) := by
    have own := (Store.bytes_append hp.name).1
    rw [memcmp_bytes, own, ← Node.prefix_iff dir, ← bytes_prefix_iff hc'.name p.name.2]
    exact eq_comm
  simp only [isChild, parent, child, strcnt_found p.name.2, strcnt_found c.name.2, strlen_found p.name.2, hc'.type, ne_eq,
    compared, p.depth, c.depth, dir, if_true, Node.accepts]
  by_cases below : p.path <+: c.path
  · by_cases also : c.type = rdtDir
    · have other : rdtDir ≠ rdtFile := by decide
      simp only [below, also, other, or_true, true_and, and_self, not_true, if_false, true_or, if_true, false_and]
      by_cases next : c.path.length = p.path.length + 1
      · rw [if_neg (not_not.mpr (by omega)), decide_eq_true next]
      · rw [if_pos (by omega), decide_eq_false next]
    · by_cases file : c.type = rdtFile
      · have other : rdtFile ≠ rdtDir := by decide
        simp only [below, file, other, or_false, or_true, false_and, true_and, if_false, if_true]
        by_cases next : c.path.length = p.path.length + 1
        · rw [if_neg (by omega), if_neg (by omega), decide_eq_true next]
        · rw [decide_eq_false next]
          split_ifs
          · omega
          · rfl
          · rfl
      · simp only [below, also, file, or_self, or_false, true_and, if_false, false_and]
        by_cases lower : p.path.length < c.path.length
        · rw [if_neg (not_not.mpr lower), decide_eq_true lower]
        · rw [if_pos lower, decide_eq_false lower]
  · simp [below]

theorem Node.last (c : Node) (below : c.path ≠ []) : lastComponent c.name.1 = c.path.getLastD [] ∧
    0x2f ∈ dropSlash c.name.1 := by
  obtain ⟨front, last, is⟩ := List.eq_nil_or_concat c.path |>.resolve_left below
  obtain ⟨nonempty, free⟩ := c.parts last (by rw [is]; simp)
  have name : c.name.1 = (0x2e :: joinSlash front) ++ 0x2f :: last ++ if c.type = rdtDir then [0x2f] else [] := by
    rw [c.named', is, joinSlash, joinSlash, List.concat_eq_append, List.flatMap_append]
    simp
  have cut : dropSlash c.name.1 = (0x2e :: joinSlash front) ++ 0x2f :: last := by
    rw [name]
    split_ifs
    · exact dropSlash_slash _
    · rw [List.append_nil]
      refine dropSlash_other _ fun slash => ?_
      rw [List.append_cons, List.getLast?_append_of_ne_nil _ nonempty] at slash
      exact free (List.mem_of_getLast? slash)
  rw [lastComponent, cut, afterLast_last _ _ _ free, is, List.concat_eq_append, List.getLastD_concat]
  exact ⟨rfl, List.mem_append_right _ (List.mem_cons_self ..)⟩

theorem Node.record_wire (c : Node) : c.record.wire = (⟨rdType c.type, 0, 0⟩ : Qid).wire ++
    split (BitVec.ofNat 64 c.size) sizeofLength ++
      (split (BitVec.ofNat 16 (c.path.getLastD []).length) shrtSize ++ c.path.getLastD []) := by
  rw [StatRecord.wire, pstringWire, Bytes.Counted.wire, flatMap_byte, ← List.append_assoc]
  rfl

/-- rd_get_stat puts the record of a node below the root, if there is room for it. -/
theorem Node.stat (c : Node) (at' : c.At m hc) (below : c.path ≠ []) {n : Nat} (large : ¬n < sizeofQid + sizeofLength) :
    ∃ reads, rdGetStat m true hc n =
      if n < c.record.wire.length then .fault else .ret c.record.wire.length c.record.wire reads := by
  obtain ⟨rest, whole⟩ := at'.whole
  obtain ⟨last, slash⟩ := c.last below
  have own := (Store.bytes_append at'.name).1
  have found : strlen (m.bytes hc sizeofHeader) = some c.name.1.length := whole ▸ strlen_found c.name.2
  have head : statHead m hc = (⟨rdType c.type, 0, 0⟩ : Qid).wire ++ split (BitVec.ofNat 64 c.size) sizeofLength := by
    rw [statHead, rdGetType, at'.type, at'.rdGetSize]
  have short : (c.path.getLastD []).length ≤ shrtMax := by
    have few := c.last_short
    rw [headerNameSize] at few
    rw [shrtMax]
    omega
  have size : c.record.wire.length = sizeofQid + sizeofLength + shrtSize + (c.path.getLastD []).length := by
    rw [c.record_wire, ← head, List.length_append, length_statHead, List.length_append, Bytes.length_split]
    omega
  refine ⟨c.name.1.length + 1, ?_⟩
  rw [rdGetStat_large true large, rdGetName_cut found, own, if_pos slash, last, rdStatEnd_put large short, size, head,
    ← c.record_wire, Nat.add_assoc]

end Nodes

section Pack

theorem StatRecord.wire_delimited : Delimited StatRecord.wire :=
  Qid.wire_delimited.append ((Bytes.split_delimited sizeofLength (by decide)).append pstringWire_delimited)

theorem StatRecord.large (r : StatRecord) : sizeofQid + sizeofLength ≤ r.wire.length := by
  simp only [wire, Qid.wire, List.length_append, Bytes.length_split, sizeofQid]
  omega

/-- The records that fit are the given ones exactly if they come first, and no room is left for a part of another. -/
theorem pack_eq_iff (n : Nat) (rs given : List StatRecord) (room : (given.flatMap StatRecord.wire).length ≤ n) :
    pack n rs = some (given.flatMap StatRecord.wire) ↔ ∃ more, rs = given ++ more ∧
      (more = [] ∨ n - (given.flatMap StatRecord.wire).length < sizeofQid + sizeofLength) := by
  induction rs generalizing n given with
  | nil =>
    rw [pack]
    cases given with
    | nil => simp
    | cons g given =>
      have long := g.large
      simp only [Option.some.injEq, List.flatMap_cons, List.cons_append, reduceCtorEq, false_and, exists_false, iff_false]
      intro empty
      have none := congrArg List.length empty
      rw [List.length_nil, List.length_append, sizeofQid] at *
      omega
  | cons r rs ih =>
    rw [pack]
    cases given with
    | nil =>
      simp only [List.flatMap_nil, List.length_nil, List.nil_append, Nat.sub_zero, exists_eq_left', reduceCtorEq, false_or]
      split_ifs with few full
      · exact ⟨fun _ => few, fun _ => rfl⟩
      · exact ⟨False.elim, fun less => absurd less few⟩
      · refine ⟨fun packed => ?_, fun less => absurd less few⟩
        obtain ⟨rest, -, empty⟩ := Option.map_eq_some_iff.mp packed
        have none := congrArg List.length empty
        have long := r.large
        rw [List.length_nil, List.length_append, sizeofQid] at *
        omega
    | cons g given =>
      have long := g.large
      rw [List.flatMap_cons, List.length_append] at room ⊢
      rw [if_neg (by omega)]
      constructor
      · intro packed
        split_ifs at packed with full
        obtain ⟨rest, fits, is⟩ := Option.map_eq_some_iff.mp packed
        obtain ⟨rfl, rfl⟩ := StatRecord.wire_delimited _ _ _ _ is
        obtain ⟨more, rfl, ends⟩ := (ih (n - r.wire.length) given (by omega)).mp fits
        exact ⟨more, rfl, ends.imp_right fun less => by omega⟩
      · rintro ⟨more, is, ends⟩
        obtain ⟨rfl, rfl⟩ := List.cons.inj is
        rw [if_neg (by omega), (ih (n - r.wire.length) given (by omega)).mpr
          ⟨more, rfl, ends.imp_right fun less => by omega⟩]
        rfl

end Pack

section Loop

variable {m : Store} {h : Nat} {p : Node} {offset : BitVec 64} {count : BitVec 32} {n : Nat}

theorem index_lt {k : Nat} (small : k < 2 ^ 32) : offset < (BitVec.ofNat 32 k).setWidth 64 ↔ offset.toNat < k := by
  rw [BitVec.lt_def, BitVec.toNat_setWidth, BitVec.toNat_ofNat, Nat.mod_eq_of_lt small, Nat.mod_eq_of_lt (by omega)]

/-- Where the loop stops: at no index if the count is above the offset. -/
theorem index_stops {k : Nat} (small : k < 2 ^ 32) :
    (BitVec.ofNat 32 k).setWidth 64 = offset - count.setWidth 64 ↔ k + count.toNat = offset.toNat := by
  have bound := offset.isLt
  have counted := count.isLt
  rw [← BitVec.toNat_inj, BitVec.toNat_setWidth, BitVec.toNat_ofNat, BitVec.toNat_sub, BitVec.toNat_setWidth,
    Nat.mod_eq_of_lt small, Nat.mod_eq_of_lt (show k < 2 ^ 64 by omega),
    Nat.mod_eq_of_lt (show count.toNat < 2 ^ 64 by omega)]
  omega

theorem index_next (k : Nat) : BitVec.ofNat 32 k + 1 = BitVec.ofNat 32 (k + 1) := by
  rw [BitVec.ofNat_add]
  rfl

/-- One turn of the loop, at the header of a node. -/
theorem rdReadDirLoop_node (dir : p.type = rdtDir) (hp : p.At m h) {c : Node} {hc : Nat} (at' : c.At m hc) (fuel k : Nat)
    (small : k + 1 < 2 ^ 32) (buffer : List Byte) :
    rdReadDirLoop m true h offset count n (fuel + 1) hc buffer (BitVec.ofNat 32 k) =
      let rest (buffer : List Byte) :=
        if k + 1 + count.toNat = offset.toNat then .ret buffer
        else rdReadDirLoop m true h offset count n fuel (c.next hc) buffer (BitVec.ofNat 32 (k + 1))
      if !p.accepts c then rdReadDirLoop m true h offset count n fuel (c.next hc) buffer (BitVec.ofNat 32 k)
      else if offset.toNat < k then
        if n - buffer.length < sizeofQid + sizeofLength then .ret buffer
        else if n - buffer.length < c.record.wire.length then .fault
        else rest (buffer ++ c.record.wire)
      else rest buffer := by
  rw [rdReadDirLoop, if_pos at'.magic, isChild_eq dir hp at', at'.next]
  simp only [index_next, index_stops small, index_lt (Nat.lt_of_succ_lt small)]
  cases accepted : p.accepts c with
  | false => rfl
  | true =>
    simp only [Bool.not_true, Bool.false_eq_true, if_false]
    have below : c.path ≠ [] := by
      rintro none
      rw [Node.accepts, none, decide_eq_true_iff] at accepted
      simp at accepted
    by_cases later : offset.toNat < k
    · rw [if_pos later, if_pos later]
      by_cases few : n - buffer.length < sizeofQid + sizeofLength
      · obtain ⟨stat, is⟩ : ∃ stat, rdGetStat m true hc (n - buffer.length) = .ret 0 stat 0 := rdGetStat_small true few
        rw [if_pos few, is]
        exact if_pos rfl
      · obtain ⟨reads, is⟩ := c.stat at' below few
        rw [if_neg few, is]
        by_cases full : n - buffer.length < c.record.wire.length
        · rw [if_pos full, if_pos full]
        · have some : c.record.wire.length ≠ 0 := by
            have long := c.record.large
            rw [sizeofQid] at long
            omega
          rw [if_neg full, if_neg full]
          exact if_neg some
    · rw [if_neg later, if_neg later]

/-- From an offset that is not above the count, the loop packs all that it takes for children, but for the first ones up
to the one at the offset. -/
theorem rdReadDirLoop_packs (dir : p.type = rdtDir) (hp : p.At m h) (low : offset.toNat ≤ count.toNat) {ns : List Node}
    {hc fuel k : Nat} {buffer : List Byte} (archive : Archive m hc (ns.map Node.toEntry)) (enough : ns.length < fuel)
    (small : k + ns.length < 2 ^ 32) (room : buffer.length ≤ n) :
    rdReadDirLoop m true h offset count n fuel hc buffer (BitVec.ofNat 32 k) = DirRead.packed buffer
      (pack (n - buffer.length) (((ns.filter p.accepts).drop (offset.toNat + 1 - k)).map Node.record)) := by
  induction ns generalizing hc fuel k buffer with
  | nil =>
    obtain ⟨fuel, rfl⟩ := Nat.exists_eq_add_of_lt enough
    have ends : isHeader m hc = false := archive
    rw [rdReadDirLoop, ends]
    simp [pack, DirRead.packed]
  | cons c ns ih =>
    obtain ⟨fuel, rfl⟩ : ∃ f, fuel = f + 1 := ⟨fuel - 1, by omega⟩
    rw [List.length_cons] at enough small
    have going : ¬k + 1 + count.toNat = offset.toNat := by omega
    rw [rdReadDirLoop_node dir hp archive.1 fuel k (by omega) buffer, List.filter_cons]
    simp only [if_neg going]
    cases accepted : p.accepts c with
    | false => exact ih archive.2 (by omega) (by omega) room
    | true =>
      simp only [Bool.not_true, Bool.false_eq_true, if_false, if_true]
      by_cases later : offset.toNat < k
      · have all : offset.toNat + 1 - k = 0 := by omega
        rw [if_pos later, all, List.drop_zero, List.map_cons, pack]
        by_cases few : n - buffer.length < sizeofQid + sizeofLength
        · rw [if_pos few, if_pos few, DirRead.packed, List.append_nil]
        · by_cases full : n - buffer.length < c.record.wire.length
          · rw [if_neg few, if_neg few, if_pos full, if_pos full]
            rfl
          · have total : (buffer ++ c.record.wire).length ≤ n := by
              rw [List.length_append]
              omega
            have rest := ih (k := k + 1) archive.2 (show ns.length < fuel by omega) (by omega) total
            have none : offset.toNat + 1 - (k + 1) = 0 := by omega
            rw [List.length_append, ← Nat.sub_sub, none, List.drop_zero] at rest
            rw [if_neg few, if_neg few, if_neg full, if_neg full, rest]
            cases pack (n - buffer.length - c.record.wire.length) ((ns.filter p.accepts).map Node.record) with
            | none => rfl
            | some bytes => exact congrArg DirRead.ret (List.append_assoc ..)
      · have one : offset.toNat + 1 - k = offset.toNat + 1 - (k + 1) + 1 := by omega
        rw [if_neg later, one, List.drop_succ_cons]
        exact ih archive.2 (by omega) (by omega) room

/-- From an offset above the count, the loop stops before it comes to the offset. -/
theorem rdReadDirLoop_stops (dir : p.type = rdtDir) (hp : p.At m h) {ns : List Node}
    {hc fuel k : Nat} {buffer : List Byte} (archive : Archive m hc (ns.map Node.toEntry)) (enough : ns.length < fuel)
    (small : k + ns.length < 2 ^ 32) (before : k + count.toNat < offset.toNat) :
    rdReadDirLoop m true h offset count n fuel hc buffer (BitVec.ofNat 32 k) = .ret buffer := by
  induction ns generalizing hc fuel k with
  | nil =>
    obtain ⟨fuel, rfl⟩ := Nat.exists_eq_add_of_lt enough
    have ends : isHeader m hc = false := archive
    rw [rdReadDirLoop, ends]
    rfl
  | cons c ns ih =>
    obtain ⟨fuel, rfl⟩ : ∃ f, fuel = f + 1 := ⟨fuel - 1, by omega⟩
    rw [List.length_cons] at enough small
    rw [rdReadDirLoop_node dir hp archive.1 fuel k (by omega) buffer]
    have earlier : ¬offset.toNat < k := by omega
    simp only [if_neg earlier]
    split_ifs with other last
    · exact ih archive.2 (by omega) (by omega) before
    · rfl
    · exact ih archive.2 (by omega) (by omega) (by omega)

end Loop

-- Where the peripherals are mapped.
def ramdiskEnd : Nat := 0x3f000000

/-- A ramdisk of files, directories and links. -/
structure Ramdisk (m : Store) (ns : List Node) : Prop where
  archive : Archive m ramdisk (ns.map Node.toEntry)
  inside : archiveEnd ramdisk (ns.map Node.toEntry) ≤ ramdiskEnd

/-- rd_read_dir puts the records of the children from the offset on, at most as many as the count. -/
def ListsDir (m : Store) (header : Nat) (p : Node) (ns : List Node) (offset : BitVec 64) (count : BitVec 32) (n : Nat) : Prop :=
  ∃ k, ∀ fuel, k ≤ fuel → rdReadDir m true fuel header offset count n =
    .ret (((((ns.filter p.childOf).drop offset.toNat).take count.toNat).map Node.record).flatMap StatRecord.wire)

/-- The records asked for are those that the scan behind the directory comes to after the one at the offset, if the offset
is not above the count, and no more of them have room. -/
def DirFits (p : Node) (ns after : List Node) (offset count n : Nat) : Prop :=
  ∃ more, (if offset ≤ count then ((after.filter p.accepts).drop (offset + 1)).map Node.record else []) =
      (((ns.filter p.childOf).drop offset).take count).map Node.record ++ more ∧
    (more = [] ∨ n - (((((ns.filter p.childOf).drop offset).take count).map Node.record).flatMap StatRecord.wire).length <
      sizeofQid + sizeofLength)

section Dir

variable {m : Store} {ns before after : List Node} {p : Node} (disk : Ramdisk m ns) (is : ns = before ++ p :: after)
  (dir : p.type = rdtDir) (offset : BitVec 64) (count : BitVec 32) (n : Nat)

include disk is dir

theorem rdReadDir_packs {fuel : Nat} (enough : after.length < fuel) :
    rdReadDir m true fuel (archiveEnd ramdisk (before.map Node.toEntry)) offset count n = DirRead.packed [] (pack n
      (if offset.toNat ≤ count.toNat then ((after.filter p.accepts).drop (offset.toNat + 1)).map Node.record else [])) := by
  obtain ⟨archive, inside⟩ := disk
  have short := Nat.le_trans (le_archiveEnd ramdisk (ns.map Node.toEntry)) inside
  rw [is, List.length_map, List.length_append, List.length_cons, ramdisk, ramdiskEnd, sizeofHeader] at short
  rw [is, List.map_append, List.map_cons] at archive
  obtain ⟨hp, behind⟩ := archive.append
  rw [rdReadDir, hp.next]
  have small : 0 + after.length < 2 ^ 32 := by omega
  by_cases low : offset.toNat ≤ count.toNat
  · rw [if_pos low]
    exact rdReadDirLoop_packs dir hp low behind enough small (Nat.zero_le n)
  · rw [if_neg low]
    have first : 0 + count.toNat < offset.toNat := by omega
    exact rdReadDirLoop_stops dir hp behind enough small first

theorem listsDir_iff : ListsDir m (archiveEnd ramdisk (before.map Node.toEntry)) p ns offset count n ↔
    pack n (if offset.toNat ≤ count.toNat then ((after.filter p.accepts).drop (offset.toNat + 1)).map Node.record else []) =
      some (((((ns.filter p.childOf).drop offset.toNat).take count.toNat).map Node.record).flatMap StatRecord.wire) := by
  constructor
  · rintro ⟨k, lists⟩
    have listed := (rdReadDir_packs disk is dir offset count n (Nat.lt_succ_of_le (Nat.le_max_right k after.length))).symm.trans
      (lists _ (Nat.le_succ_of_le (Nat.le_max_left k after.length)))
    revert listed
    generalize pack n _ = bytes
    intro listed
    cases bytes with
    | none => cases listed
    | some bytes => exact congrArg some (DirRead.ret.inj listed)
  · intro packed
    refine ⟨after.length + 1, fun fuel enough => ?_⟩
    rw [rdReadDir_packs disk is dir offset count n enough, packed]
    rfl

/-- rd_read_dir lists the children exactly where those from the next offset on happen to have the same records. -/
theorem rdReadDir_lists_iff
    (room : (((((ns.filter p.childOf).drop offset.toNat).take count.toNat).map Node.record).flatMap
      StatRecord.wire).length ≤ n) :
    ListsDir m (archiveEnd ramdisk (before.map Node.toEntry)) p ns offset count n ↔
      DirFits p ns after offset.toNat count.toNat n := by
  rw [DirFits, ← pack_eq_iff n _ _ room]
  exact listsDir_iff disk is dir offset count n

end Dir

-- "./", "./a" and "./b".

def rootNode : Node := ⟨rootDir, [], by decide, rfl, by decide⟩

def aFile : Entry := { rootDir with name := ⟨[0x2e, 0x2f, 0x61], by decide⟩, type := rdtFile, dot := rfl, short := by decide }

def aNode : Node := ⟨aFile, [[0x61]], by decide, rfl, by decide⟩

def bFile : Entry := { aFile with name := ⟨[0x2e, 0x2f, 0x62], by decide⟩, dot := rfl, short := by decide }

def bNode : Node := ⟨bFile, [[0x62]], by decide, rfl, by decide⟩

def twoFiles : List Node := [rootNode, aNode, bNode]

theorem twoFiles_ramdisk : Ramdisk (archiveImage ramdisk (twoFiles.map Node.toEntry)) twoFiles :=
  ⟨archiveImage_archive _ _, by decide⟩

theorem rdReadDir_lists_end :
    ListsDir (archiveImage ramdisk (twoFiles.map Node.toEntry)) ramdisk rootNode twoFiles 2 1 100 :=
  (@rdReadDir_lists_iff _ _ [] _ _ twoFiles_ramdisk rfl rfl 2 1 100 (by decide)).mpr ⟨[], by decide, .inl rfl⟩

/-- A listing of the root from its start leaves out the first file. -/
theorem rdReadDir_skips : ¬ ListsDir (archiveImage ramdisk (twoFiles.map Node.toEntry)) ramdisk rootNode twoFiles 0 2 100 := by
  intro lists
  have packed := (@listsDir_iff _ _ [] _ _ twoFiles_ramdisk rfl rfl 0 2 100).mp lists
  obtain ⟨more, is, -⟩ := (pack_eq_iff 100 _ _ (by decide)).mp packed
  have fewer : 1 = 2 + more.length := (congrArg List.length is).trans List.length_append
  omega

end Anthill
