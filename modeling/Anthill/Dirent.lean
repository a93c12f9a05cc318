import Anthill.RdReadDir
import Anthill.StreamRead

set_option autoImplicit false

namespace Anthill

open Bytes (Store split)

structure Dirent where
  ino : BitVec 64
  len : BitVec 64
  name : List Byte
deriving DecidableEq

/-- Why readdir returns NULL: the stream is none of a directory, file_read has read nothing, or the name is too long. -/
inductive DirEnd where
  | badf | eof | overflow
deriving DecidableEq

-- The end of readdir, once there is an entry in the buffer.
def nextDirent (s : Stdio) : Except DirEnd Dirent × Stdio :=
  let stat := s.file.rPos
  let entryName := stat + sizeofQid + sizeofLength
  let name := (pstringAt s.mem.bytes entryName).1
  if bufsiz - 8 < name.length then (.error .overflow, s)
  else
    (.ok ⟨getUlong s.mem.bytes (stat + 8), getUlong s.mem.bytes (stat + sizeofQid), name⟩,
      { s with file := { s.file with
          offset := s.file.offset + 1
          rPos := stat + (sizeofQid + sizeofLength + pstrlen s.mem.bytes entryName) } })

def readdir (host : Host) (s : Stdio) : Except DirEnd Dirent × Stdio :=
  if !s.file.has fOpen || !s.file.has fDir then (.error .badf, { s with errno := some .ebadf })
  else if s.file.rEnd = s.file.rPos then
    match fileRead host bufsiz s with
    | (0, s) => (.error .eof, { s with file := { s.file with flags := s.file.flags ||| fEof } })
    | (_ + 1, s) => nextDirent s
  else nextDirent s

-- The precedence in `~F_EOF` is that of `(~1) << 1`.
def rewinddir (s : Stdio) : Stdio :=
  { s with file := { s.file with
      rPos := s.file.buf, rEnd := s.file.buf, offset := 0, flags := s.file.flags ||| (~~~(1 : BitVec 32)) <<< 1 } }

-- The entries that the loop of cmd_ls prints.
def lsLoop (host : Host) : Nat → Stdio → Option (List Dirent × Stdio)
  | 0, _ => none
  | fuel + 1, s =>
    match readdir host s with
    | (.error _, s) => some ([], s)
    | (.ok dirent, s) => (lsLoop host fuel s).map fun (rest, s) => (dirent :: rest, s)

def cmdLs (host : Host) (fuel : Nat) (s : Stdio) : Option (List Dirent × Stdio) := lsLoop host fuel (rewinddir s)

def StatRecord.dirent (r : StatRecord) : Dirent := ⟨r.1.id, r.2.1, r.2.2.1⟩

def wires (rs : List StatRecord) : List Byte := rs.flatMap StatRecord.wire

/-- The first records, as many as have room in `n` bytes. -/
def batch : Nat → List StatRecord → List StatRecord
  | _, [] => []
  | n, r :: rs => if n < r.wire.length then [] else r :: batch (n - r.wire.length) rs

/-- A server that answers for a fid with the records from the offset on, as many as there is room for, and that fails where
it has none. -/
def Host.Lists (host : Host) (fid : BitVec 32) (rs : List StatRecord) : Prop := ∀ t : Tread,
  t.fid = fid → t.offset.toNat < 2 ^ 32 → t.count ≤ vfsMaxIounit →
  host.read t = if batch t.count (rs.drop t.offset.toNat) = [] then none
    else some (wires (batch t.count (rs.drop t.offset.toNat)))

/-- Taken as many at a time as there is room for in a message, all the records are taken, and no message is filled. -/
inductive Batched : List StatRecord → Prop where
  | nil : Batched []
  | cons {rs : List StatRecord} (some_ : batch vfsMaxIounit rs ≠ []) (part : (wires (batch vfsMaxIounit rs)).length ≠ vfsMaxIounit)
      (rest : Batched (rs.drop (batch vfsMaxIounit rs).length)) : Batched rs

section Batch

variable {n : Nat} {rs : List StatRecord}

theorem batch_length (n : Nat) (rs : List StatRecord) : (wires (batch n rs)).length ≤ n := by
  induction rs generalizing n with
  | nil => exact Nat.zero_le n
  | cons r rs ih =>
    rw [batch]
    split
    · exact Nat.zero_le n
    · have rest := ih (n - r.wire.length)
      rw [wires] at rest ⊢
      rw [List.flatMap_cons, List.length_append]
      omega

theorem batch_prefix (n : Nat) (rs : List StatRecord) : batch n rs <+: rs := by
  induction rs generalizing n with
  | nil => exact List.prefix_refl _
  | cons r rs ih =>
    rw [batch]
    split
    · exact List.nil_prefix
    · exact List.cons_prefix_cons.mpr ⟨rfl, ih _⟩

/-- Every record takes up the bytes of its fixed part. -/
theorem wires_large (rs : List StatRecord) : (sizeofQid + sizeofLength) * rs.length ≤ (wires rs).length := by
  induction rs with
  | nil => exact Nat.le_refl _
  | cons r rs ih =>
    have large := r.large
    rw [wires] at ih ⊢
    rw [List.flatMap_cons, List.length_append, List.length_cons, Nat.mul_succ]
    omega

theorem wires_pos (some_ : rs ≠ []) : 0 < (wires rs).length := by
  obtain ⟨r, rest, rfl⟩ := List.exists_cons_of_ne_nil some_
  have large := wires_large (r :: rest)
  rw [List.length_cons, sizeofQid, sizeofLength] at large
  omega

theorem wire_le {r : StatRecord} (inside : r ∈ rs) : r.wire.length ≤ (wires rs).length := by
  obtain ⟨before, after, rfl⟩ := List.append_of_mem inside
  rw [wires, List.flatMap_append, List.flatMap_cons, List.length_append, List.length_append]
  omega

end Batch

section Entry

variable {host : Host} {fid : BitVec 32} {s : Stdio}

/-- A record as it lies in the buffer. -/
theorem record_at {m : Store} {a : Nat} {r : StatRecord} (at_ : m.bytes a r.wire.length = r.wire) :
    getUlong m (a + 8) = r.1.id ∧ getUlong m (a + sizeofQid) = r.2.1 ∧
      (pstringAt m (a + sizeofQid + sizeofLength)).1 = r.2.2.1 ∧
        sizeofQid + sizeofLength + pstrlen m (a + sizeofQid + sizeofLength) = r.wire.length := by
  have whole : r.wire = r.1.wire ++ (split r.2.1 sizeofLength ++ pstringWire r.2.2) := rfl
  have size : r.1.wire.length = sizeofQid := by simp only [Qid.wire, List.length_append, Bytes.length_split, sizeofQid]
  rw [whole] at at_ ⊢
  obtain ⟨qid, behind⟩ := Store.bytes_append at_
  obtain ⟨length, name⟩ := Store.bytes_append behind
  rw [size] at qid length name
  rw [Bytes.length_split] at length name
  have same : qidAt m a = r.1 := by
    have wire := (qidAt_wire m a).trans qid
    exact (Qid.wire_delimited (qidAt m a) r.1 [] [] (by rw [wire])).1
  have entry : pstringWire r.2.2 = split (BitVec.ofNat 16 r.2.2.1.length) shrtSize ++ r.2.2.1 := by
    rw [pstringWire, Bytes.Counted.wire, flatMap_byte]
  rw [entry, ← List.append_nil (_ ++ _)] at name
  obtain ⟨length', text, -⟩ := element_wire r.2.2.1 [] name
  have short : r.2.2.1.length % 65536 = r.2.2.1.length := Nat.mod_eq_of_lt r.2.2.2
  refine ⟨congrArg Qid.id same, ?_, ?_, ?_⟩
  · rw [getUlong_eq]
    exact (congrArg (Bytes.combine 64) length).trans (Bytes.combine_split _ _ (BitVec.isLt _))
  · rw [text, short, List.take_length]
  · rw [List.length_append, List.length_append, size, Bytes.length_split, entry, List.length_append, Bytes.length_split,
      pstrlen, length', short]
    omega

/-- What readdir needs of a stream: it is open for a directory, and has a buffer or gets one. -/
structure DirOpened (host : Host) (fid : BitVec 32) (s : Stdio) : Prop where
  fid : s.file.fid = fid
  opened : s.file.has fOpen = true
  dir : s.file.has fDir = true
  readable : s.file.has fRead = true
  memory : s.file.buf ≠ 0 ∨ host.malloc s.requests ≠ 0

-- The stream behind some records of its buffer.
def Stdio.skip (s : Stdio) (rs : List StatRecord) : Stdio :=
  { s with file := { s.file with
      offset := s.file.offset + BitVec.ofNat 64 rs.length, rPos := s.file.rPos + (wires rs).length } }

theorem Stdio.skip_cons (s : Stdio) (r : StatRecord) (rs : List StatRecord) : s.skip (r :: rs) = (s.skip [r]).skip rs := by
  have bytes : (wires (r :: rs)).length = (wires [r]).length + (wires rs).length := by simp [wires]
  have count : BitVec.ofNat 64 (r :: rs).length = BitVec.ofNat 64 [r].length + BitVec.ofNat 64 rs.length := by
    rw [← BitVec.ofNat_add, List.length_cons, List.length_singleton, Nat.add_comm]
  simp only [skip, bytes, count, Nat.add_assoc, BitVec.add_assoc]

theorem DirOpened.skip (opened : DirOpened host fid s) (rs : List StatRecord) : DirOpened host fid (s.skip rs) :=
  ⟨opened.fid, opened.opened, opened.dir, opened.readable, opened.memory⟩

/-- A record of the buffer is the entry that readdir returns. -/
theorem nextDirent_at {r : StatRecord} (at_ : s.mem.bytes.bytes s.file.rPos r.wire.length = r.wire)
    (short : r.wire.length ≤ vfsMaxIounit) : nextDirent s = (.ok r.dirent, s.skip [r]) := by
  obtain ⟨ino, len, name, size⟩ := record_at at_
  have fits : ¬ bufsiz - 8 < r.2.2.1.length := by
    have whole : r.wire.length = r.1.wire.length + ((split r.2.1 sizeofLength).length + (pstringWire r.2.2).length) := by
      rw [StatRecord.wire, List.length_append, List.length_append]
    have text : r.2.2.1.length ≤ (pstringWire r.2.2).length := by
      rw [pstringWire, Bytes.Counted.wire, flatMap_byte, List.length_append]
      exact Nat.le_add_left _ _
    rw [vfsMaxIounit] at short
    rw [bufsiz]
    omega
  have whole : (wires [r]).length = r.wire.length := by simp [wires]
  rw [nextDirent]
  simp only [ino, len, name, size, if_neg fits]
  rw [Stdio.skip, whole]
  rfl

theorem readdir_buffered {r : StatRecord} (opened : DirOpened host fid s)
    (at_ : s.mem.bytes.bytes s.file.rPos r.wire.length = r.wire) (short : r.wire.length ≤ vfsMaxIounit)
    (some_ : s.file.rEnd ≠ s.file.rPos) : readdir host s = (.ok r.dirent, s.skip [r]) := by
  rw [readdir, opened.opened, opened.dir, if_neg some_]
  exact nextDirent_at at_ short

/-- The records in the buffer are listed first. -/
theorem lsLoop_buffered {b : List StatRecord} (opened : DirOpened host fid s)
    (at_ : s.mem.bytes.bytes s.file.rPos (wires b).length = wires b) (inside : s.file.rPos + (wires b).length ≤ s.file.rEnd)
    (short : ∀ r, r ∈ b → r.wire.length ≤ vfsMaxIounit) (fuel : Nat) (out : List Dirent) (s' : Stdio) :
    lsLoop host fuel s = some (out, s') ↔ ∃ fuel' out', fuel = fuel' + b.length ∧ out = b.map StatRecord.dirent ++ out' ∧
      lsLoop host fuel' (s.skip b) = some (out', s') := by
  induction b generalizing s fuel out with
  | nil =>
    have same : s.skip [] = s := by simp [Stdio.skip, wires]
    rw [same]
    constructor
    · exact fun done => ⟨fuel, out, rfl, rfl, done⟩
    · rintro ⟨fuel', out', rfl, rfl, done⟩
      exact done
  | cons r b ih =>
    obtain ⟨first, rest⟩ := List.forall_mem_cons.mp short
    have large := r.large
    rw [wires, List.flatMap_cons] at at_ inside
    obtain ⟨here, behind⟩ := Store.bytes_append at_
    rw [List.length_append] at inside
    have some_ : s.file.rEnd ≠ s.file.rPos := by
      rw [sizeofQid, sizeofLength] at large
      omega
    have whole : (wires [r]).length = r.wire.length := by simp [wires]
    have next := readdir_buffered opened here first some_
    have place : (s.skip [r]).file.rPos = s.file.rPos + r.wire.length := by rw [Stdio.skip, whole]
    have later := ih (s := s.skip [r]) (opened.skip _) (by rw [place]; exact behind) (by
      rw [place, Nat.add_assoc]
      exact inside) rest
    cases fuel with
    | zero =>
      constructor
      · exact fun done => by cases done
      · rintro ⟨fuel', out', is, -, -⟩
        rw [List.length_cons] at is
        omega
    | succ fuel =>
      rw [lsLoop, next]
      simp only [Option.map_eq_some_iff, Prod.exists, Prod.mk.injEq]
      constructor
      · rintro ⟨out', s'', done, rfl, rfl⟩
        obtain ⟨fuel', out'', rfl, rfl, ends⟩ := (later fuel out').mp done
        refine ⟨fuel', out'', by rw [List.length_cons, Nat.add_assoc], by rw [List.map_cons, List.cons_append], ?_⟩
        rwa [Stdio.skip_cons]
      · rintro ⟨fuel', out', is, rfl, done⟩
        rw [Stdio.skip_cons] at done
        rw [List.length_cons] at is
        refine ⟨b.map StatRecord.dirent ++ out', s', (later fuel _).mpr ⟨fuel', out', by omega, rfl, done⟩, ?_, rfl⟩
        rw [List.map_cons, List.cons_append]

theorem bytes_write_behind (m : Store) (a n : Nat) (bs : List Byte) :
    (m.write (a + n) bs).bytes a (n + bs.length) = m.bytes a n ++ bs := by
  rw [Store.bytes_add, Store.bytes_write]
  refine congrArg (· ++ bs) (Store.bytes_congr fun x low high => ?_)
  exact Store.write_outside _ _ _ x (.inl (by omega))

/-- The loop of file_read keeps what it has put, and puts the rest behind it. -/
theorem readLoop_grows {fuel n cur total : Nat} {s' : Stdio} (done : readLoop host fuel n cur s = .ok (total, s')) :
    s'.file = s.file ∧ s'.requests = s.requests ∧ ∃ data, total = cur + data.length ∧
      s'.mem.bytes.bytes s.file.buf total = s.mem.bytes.bytes s.file.buf cur ++ data := by
  induction fuel generalizing cur s with
  | zero =>
    obtain ⟨rfl, rfl⟩ := Prod.mk.inj (Except.ok.inj done)
    exact ⟨rfl, rfl, [], rfl, (List.append_nil _).symm⟩
  | succ fuel ih =>
    rw [readLoop] at done
    split at done
    · obtain ⟨rfl, rfl⟩ := Prod.mk.inj (Except.ok.inj done)
      exact ⟨rfl, rfl, [], rfl, (List.append_nil _).symm⟩
    simp only at done
    split at done
    · cases done
    · next data _ =>
      have put := bytes_write_behind s.mem.bytes s.file.buf cur
        (data.take (min data.length (min (n - cur) vfsMaxIounit)))
      have size : (data.take (min data.length (min (n - cur) vfsMaxIounit))).length =
          min data.length (min (n - cur) vfsMaxIounit) := by
        rw [List.length_take]
        omega
      rw [size] at put
      split at done
      · obtain ⟨rfl, rfl⟩ := Prod.mk.inj (Except.ok.inj done)
        exact ⟨rfl, rfl, _, by rw [size], put⟩
      · obtain ⟨file, requests, rest, is, bytes⟩ := ih done
        refine ⟨file, requests, data.take (min data.length (min (n - cur) vfsMaxIounit)) ++ rest, ?_, ?_⟩
        · rw [List.length_append, size, is, Nat.add_assoc]
        · rw [bytes, ← List.append_assoc]
          exact congrArg (· ++ rest) put

theorem DirOpened.needBuf (opened : DirOpened host fid s) (empty : s.file.rEnd = s.file.rPos) : ∃ s',
    needBuf host s = (true, s') ∧ s'.file.buf ≠ 0 ∧ s'.file.rEnd = s'.file.rPos ∧ s'.file.flags = s.file.flags ∧
      s'.file.offset = s.file.offset ∧ s'.file.fid = s.file.fid := by
  rw [Anthill.needBuf]
  split
  · next none_ =>
    have some_ := opened.memory.resolve_left (not_not.mpr none_)
    rw [fileAlloc, if_neg some_]
    refine ⟨_, rfl, ?_, ?_, rfl, rfl, rfl⟩
    · exact some_
    · simp only [File.attach, opened.readable, if_true]
  · next some_ => exact ⟨s, rfl, some_, empty, rfl, rfl, rfl⟩

end Entry

-- The stream with the records of one message behind the bytes that it has.
def Stdio.got (s : Stdio) (cur : Nat) (b : List StatRecord) : Stdio :=
  { s with tagCount := s.tagCount + 1, mem := s.mem.memcpy (s.file.buf + cur) (wires b) }

-- The stream whose buffer has been filled.
def Stdio.filled (s : Stdio) (total : Nat) : Stdio :=
  { s with file := { s.file with rPos := s.file.buf, rEnd := s.file.buf + total } }

/-- Records in the buffer of a stream that stands at an offset. -/
structure Entries (host : Host) (fid : BitVec 32) (s : Stdio) (offset : BitVec 64) (b : List StatRecord) : Prop where
  opened : DirOpened host fid s
  offset : s.file.offset = offset
  bytes : s.mem.bytes.bytes s.file.rPos (wires b).length = wires b
  inside : s.file.rPos + (wires b).length ≤ s.file.rEnd
  short : ∀ r, r ∈ b → r.wire.length ≤ vfsMaxIounit

section Fill

variable {host : Host} {fid : BitVec 32} {rs : List StatRecord} (lists : host.Lists fid rs) {s : Stdio}

include lists

/-- A turn of file_read asks for the records from the offset and the bytes that it has on. -/
theorem readLoop_turn (fid_ : s.file.fid = fid) (fuel : Nat) {cur : Nat} (room : cur + vfsMaxIounit ≤ bufsiz)
    (small : s.file.offset.toNat + bufsiz < 2 ^ 32) {b : List StatRecord}
    (is : batch vfsMaxIounit (rs.drop (s.file.offset.toNat + cur)) = b) :
    readLoop host (fuel + 1) bufsiz cur s =
      if b = [] then .error { s with tagCount := s.tagCount + 1, errno := some .eio }
      else if (wires b).length < vfsMaxIounit then .ok (cur + (wires b).length, s.got cur b)
      else readLoop host fuel bufsiz (cur + vfsMaxIounit) (s.got cur b) := by
  have unit : vfsMaxIounit = 100 := rfl
  have size : bufsiz = 512 := rfl
  have more : ¬ bufsiz ≤ cur := by omega
  have count : min (bufsiz - cur) vfsMaxIounit = vfsMaxIounit := by omega
  have place : (s.file.offset + BitVec.ofNat 64 cur).toNat = s.file.offset.toNat + cur := by
    rw [BitVec.toNat_add, BitVec.toNat_ofNat]
    omega
  have answered := lists ⟨s.tagCount, s.file.fid, s.file.offset + BitVec.ofNat 64 cur, vfsMaxIounit⟩
    fid_ (by rw [place]; omega) (Nat.le_refl _)
  simp only [place, is] at answered
  have long : (wires b).length ≤ vfsMaxIounit := is ▸ batch_length _ _
  rw [readLoop, if_neg more]
  simp only [count, answered]
  by_cases none_ : b = []
  · rw [if_pos none_, if_pos none_]
  · rw [if_neg none_, if_neg none_]
    simp only [Nat.min_eq_left long, List.take_length]
    split
    · rfl
    · next full =>
      have whole : (wires b).length = vfsMaxIounit := by omega
      rw [whole]
      rfl

/-- A message that is filled is followed by another one, whose records begin at an offset that counts bytes. -/
theorem readLoop_behind (fid_ : s.file.fid = fid) (small : s.file.offset.toNat + bufsiz < 2 ^ 32) :
    (∃ s', readLoop host 511 bufsiz vfsMaxIounit s = .error s') ∨ ∃ total s' r more,
      rs[s.file.offset.toNat + vfsMaxIounit]? = some r ∧ r.wire.length ≤ vfsMaxIounit ∧
        readLoop host 511 bufsiz vfsMaxIounit s = .ok (total, s') ∧ s'.file = s.file ∧
          s'.mem.bytes.bytes s.file.buf total = s.mem.bytes.bytes s.file.buf vfsMaxIounit ++ (r.wire ++ more) := by
  obtain ⟨b, is⟩ : ∃ b, batch vfsMaxIounit (rs.drop (s.file.offset.toNat + vfsMaxIounit)) = b := ⟨_, rfl⟩
  have turn : readLoop host 511 bufsiz vfsMaxIounit s = _ :=
    readLoop_turn lists fid_ 510 (show vfsMaxIounit + vfsMaxIounit ≤ bufsiz by decide) small is
  cases b with
  | nil => exact .inl ⟨_, turn⟩
  | cons r rest =>
    have there : rs[s.file.offset.toNat + vfsMaxIounit]? = some r := by
      obtain ⟨others, split_⟩ := is ▸ batch_prefix vfsMaxIounit (rs.drop (s.file.offset.toNat + vfsMaxIounit))
      have first := congrArg (fun l : List StatRecord => l[0]?) split_
      rw [List.getElem?_drop] at first
      exact first.symm
    have parts : wires (r :: rest) = r.wire ++ wires rest := List.flatMap_cons
    have long : (wires (r :: rest)).length ≤ vfsMaxIounit := is ▸ batch_length _ _
    have short := Nat.le_trans (wire_le (List.mem_cons_self ..)) long
    have put : (s.got vfsMaxIounit (r :: rest)).mem.bytes.bytes s.file.buf (vfsMaxIounit + (wires (r :: rest)).length) =
        s.mem.bytes.bytes s.file.buf vfsMaxIounit ++ wires (r :: rest) := bytes_write_behind _ _ _ _
    rw [if_neg (List.cons_ne_nil r rest)] at turn
    cases done : readLoop host 511 bufsiz vfsMaxIounit s with
    | error s' => exact .inl ⟨s', rfl⟩
    | ok filled =>
      obtain ⟨total, s'⟩ := filled
      rw [done] at turn
      refine .inr ⟨total, s', r, ?_⟩
      split at turn
      · obtain ⟨rfl, rfl⟩ := Prod.mk.inj (Except.ok.inj turn)
        exact ⟨wires rest, there, short, rfl, rfl, parts ▸ put⟩
      · next full =>
        have whole : (wires (r :: rest)).length = vfsMaxIounit := by omega
        obtain ⟨file, -, more, -, bytes⟩ := readLoop_grows turn.symm
        rw [whole] at put
        refine ⟨wires rest ++ more, there, short, rfl, file, ?_⟩
        rw [← List.append_assoc r.wire, ← parts, ← List.append_assoc, ← put]
        exact bytes

omit lists in
/-- What is behind the loop of file_read is filled with what it has put first. -/
theorem Entries.of_loop {s s' : Stdio} {total : Nat} {b : List StatRecord} {more : List Byte} (opened : DirOpened host fid s)
    (buf : s.file.buf ≠ 0) (file : s'.file = s.file) (bytes : s'.mem.bytes.bytes s.file.buf total = wires b ++ more)
    (short : ∀ r, r ∈ b → r.wire.length ≤ vfsMaxIounit) :
    Entries host fid (s'.filled total) s.file.offset b := by
  have size := congrArg List.length bytes
  rw [Store.length_bytes, List.length_append] at size
  rw [Stdio.filled, file]
  refine ⟨⟨opened.fid, opened.opened, opened.dir, opened.readable, .inl buf⟩, rfl, ?_, ?_, short⟩
  · rw [size, Store.bytes_add] at bytes
    exact (List.append_inj bytes (Store.length_bytes ..)).1
  · simp only
    omega

/-- What file_read leaves of a buffer of a directory's records: none; those of one message; or, where these fill the message,
none or others behind them, which begin at an offset that counts bytes. -/
theorem fileRead_dir (opened : DirOpened host fid s) (empty : s.file.rEnd = s.file.rPos)
    (small : s.file.offset.toNat + bufsiz < 2 ^ 32) {b : List StatRecord}
    (is : batch vfsMaxIounit (rs.drop s.file.offset.toNat) = b) :
    b = [] ∧ (fileRead host bufsiz s).1 = 0 ∨
      (b ≠ [] ∧ (wires b).length ≠ vfsMaxIounit ∧ ∃ n s', fileRead host bufsiz s = (n + 1, s') ∧
        Entries host fid s' s.file.offset b ∧ s'.file.rEnd = s'.file.rPos + (wires b).length) ∨
      (wires b).length = vfsMaxIounit ∧ ((fileRead host bufsiz s).1 = 0 ∨ ∃ n s' r,
        rs[s.file.offset.toNat + vfsMaxIounit]? = some r ∧ fileRead host bufsiz s = (n + 1, s') ∧
          Entries host fid s' s.file.offset (b ++ [r])) := by
  obtain ⟨s₁, begins, buf, same, flags, offset, fid_⟩ := opened.needBuf empty
  have idle : ¬ (0 < ((s₁.file.rEnd : Int) - s₁.file.rPos) % sizeModulus ∧
      ((s₁.file.rEnd : Int) - s₁.file.rPos) % sizeModulus < bufsiz) := by
    rw [same, Int.sub_self, Int.zero_emod]
    exact fun filled => absurd filled.1 (Int.lt_irrefl 0)
  have has (flag : BitVec 32) (set : s.file.has flag = true) : s₁.file.has flag = true := by rwa [File.has, flags]
  have opened₁ : DirOpened host fid s₁ :=
    ⟨fid_.trans opened.fid, has _ opened.opened, has _ opened.dir, has _ opened.readable, .inl buf⟩
  rw [← offset] at is small ⊢
  have turn := readLoop_turn lists opened₁.fid 511 (show 0 + vfsMaxIounit ≤ bufsiz by decide) small is
  have ended {s₂ : Stdio} (loop : readLoop host bufsiz bufsiz 0 s₁ = .error s₂) : fileRead host bufsiz s = (0, s₂) := by
    rw [fileRead, begins]
    exact (if_neg idle).trans (by rw [loop])
  have read {n : Nat} {s₂ : Stdio} (loop : readLoop host bufsiz bufsiz 0 s₁ = .ok (n, s₂)) :
      fileRead host bufsiz s = (n, s₂.filled n) := by
    rw [fileRead, begins]
    exact (if_neg idle).trans (by rw [loop]; rfl)
  have long : (wires b).length ≤ vfsMaxIounit := is ▸ batch_length _ _
  have short (r : StatRecord) (inside : r ∈ b) := Nat.le_trans (wire_le inside) long
  have got : (s₁.got 0 b).mem.bytes.bytes s₁.file.buf (wires b).length = wires b := Store.bytes_write _ _ _
  by_cases none_ : b = []
  · rw [if_pos none_] at turn
    exact .inl ⟨none_, by rw [ended turn]⟩
  rw [if_neg none_] at turn
  have positive := wires_pos none_
  by_cases full : (wires b).length = vfsMaxIounit
  · refine .inr (.inr ⟨full, ?_⟩)
    rw [full, if_neg (Nat.lt_irrefl _), Nat.zero_add] at turn
    have unit : vfsMaxIounit = 100 := rfl
    rcases readLoop_behind lists (s := s₁.got 0 b) opened₁.fid small with ⟨s', ends⟩ |
      ⟨total, s', r, more, there, last, ends, file, bytes⟩
    · exact .inl (by rw [ended (turn.trans ends)])
    · have parts : wires (b ++ [r]) = wires b ++ r.wire := by simp [wires]
      have first : (s₁.got 0 b).mem.bytes.bytes s₁.file.buf vfsMaxIounit = wires b := full ▸ got
      have all : s'.mem.bytes.bytes s₁.file.buf total = wires (b ++ [r]) ++ more := by
        rw [parts, List.append_assoc, ← first]
        exact bytes
      have positive : 0 < total := by
        have size := congrArg List.length bytes
        rw [Store.length_bytes, List.length_append, Store.length_bytes] at size
        omega
      refine .inr ⟨total - 1, s'.filled total, r, there, ?_, Entries.of_loop opened₁ buf file all fun x inside => ?_⟩
      · rw [read (turn.trans ends), Nat.sub_add_cancel positive]
      · rcases List.mem_append.mp inside with inside | inside
        · exact short x inside
        · exact List.mem_singleton.mp inside ▸ last
  · have part : (wires b).length < vfsMaxIounit := Nat.lt_of_le_of_ne long full
    rw [if_pos part, Nat.zero_add] at turn
    refine .inr (.inl ⟨none_, full, (wires b).length - 1, (s₁.got 0 b).filled (wires b).length, ?_, ?_, rfl⟩)
    · rw [read turn, Nat.sub_add_cancel positive]
    · exact Entries.of_loop opened₁ buf rfl (by rw [got, List.append_nil]) short

end Fill

theorem batched_iff {rs : List StatRecord} : Batched rs ↔ rs = [] ∨ batch vfsMaxIounit rs ≠ [] ∧
    (wires (batch vfsMaxIounit rs)).length ≠ vfsMaxIounit ∧ Batched (rs.drop (batch vfsMaxIounit rs).length) := by
  constructor
  · intro batched
    cases batched with
    | nil => exact .inl rfl
    | cons some_ part rest => exact .inr ⟨some_, part, rest⟩
  · rintro (rfl | ⟨some_, part, rest⟩)
    · exact .nil
    · exact .cons some_ part rest

section Listing

variable {host : Host} {fid : BitVec 32} {rs : List StatRecord} (lists : host.Lists fid rs) {s : Stdio}

-- An empty buffer is filled before an entry is taken from it.
theorem lsLoop_filled {s' : Stdio} {n : Nat} (opened : DirOpened host fid s) (empty : s.file.rEnd = s.file.rPos)
    (filled : fileRead host bufsiz s = (n + 1, s')) (opened' : DirOpened host fid s') (some_ : s'.file.rEnd ≠ s'.file.rPos)
    (fuel : Nat) : lsLoop host fuel s = lsLoop host fuel s' := by
  have same : readdir host s = readdir host s' := by
    rw [readdir, readdir, opened.opened, opened.dir, opened'.opened, opened'.dir, if_pos empty, if_neg some_, filled]
    rfl
  cases fuel with
  | zero => rfl
  | succ fuel => rw [lsLoop, lsLoop, same]

theorem lsLoop_end (opened : DirOpened host fid s) (empty : s.file.rEnd = s.file.rPos)
    (none_ : (fileRead host bufsiz s).1 = 0) : (∃ s', lsLoop host 1 s = some ([], s')) ∧
      ∀ fuel out s', lsLoop host fuel s = some (out, s') → out = [] := by
  obtain ⟨s'', ended⟩ : ∃ s', readdir host s = (.error .eof, s') := by
    rw [readdir, opened.opened, opened.dir, if_pos empty]
    cases filled : fileRead host bufsiz s with
    | mk n s' =>
      rw [filled] at none_
      obtain rfl : n = 0 := none_
      exact ⟨_, rfl⟩
  refine ⟨⟨s'', by rw [lsLoop, ended]⟩, fun fuel out s' done => ?_⟩
  cases fuel with
  | zero => cases done
  | succ fuel =>
    rw [lsLoop, ended] at done
    exact (Prod.mk.inj (Option.some.inj done)).1.symm

include lists in
theorem lsLoop_iff (few : rs.length + bufsiz < 2 ^ 32) (distinct : (rs.map StatRecord.dirent).Nodup)
    (opened : DirOpened host fid s) (empty : s.file.rEnd = s.file.rPos) (within : s.file.offset.toNat ≤ rs.length) :
    (∃ fuel s', lsLoop host fuel s = some ((rs.drop s.file.offset.toNat).map StatRecord.dirent, s')) ↔
      Batched (rs.drop s.file.offset.toNat) := by
  induction left : rs.length - s.file.offset.toNat using Nat.strong_induction_on generalizing s with
  | _ n ih =>
  obtain ⟨b, is⟩ : ∃ b, batch vfsMaxIounit (rs.drop s.file.offset.toNat) = b := ⟨_, rfl⟩
  obtain ⟨others, split_⟩ : ∃ others, b ++ others = rs.drop s.file.offset.toNat := is ▸ batch_prefix _ _
  rw [batched_iff, is]
  rcases fileRead_dir lists opened empty (by omega) is with ⟨rfl, none_⟩ | ⟨some_, part, n, s', filled, at_, whole⟩ |
    ⟨full, none_ | ⟨n, s', r, there, filled, at_⟩⟩
  · obtain ⟨⟨s', ends⟩, only⟩ := lsLoop_end opened empty none_
    constructor
    · rintro ⟨fuel, s', done⟩
      exact .inl (List.map_eq_nil_iff.mp (only fuel _ s' done))
    · rintro (nothing | ⟨some_, -⟩)
      · exact ⟨1, s', by rw [nothing]; exact ends⟩
      · exact absurd rfl some_
  · have positive := wires_pos some_
    have equal := lsLoop_filled opened empty filled at_.opened (by omega)
    have size := congrArg List.length split_
    rw [List.length_append, List.length_drop] at size
    have taken : 0 < b.length := List.length_pos_of_ne_nil some_
    have place : (s'.skip b).file.offset.toNat = s.file.offset.toNat + b.length := by
      rw [Stdio.skip, at_.offset, BitVec.toNat_add, BitVec.toNat_ofNat]
      omega
    have next := ih (rs.length - (s'.skip b).file.offset.toNat) (by omega) (at_.opened.skip b) whole (by omega) rfl
    have rest : rs.drop (s.file.offset.toNat + b.length) = others := by
      rw [← List.drop_drop, ← split_, List.drop_left]
    rw [place, rest] at next
    rw [← split_, List.drop_left, ← next, List.map_append]
    constructor
    · rintro ⟨fuel, s'', done⟩
      rw [equal] at done
      obtain ⟨fuel', out, -, same, done⟩ := (lsLoop_buffered at_.opened at_.bytes at_.inside at_.short fuel _ s'').mp done
      obtain rfl := List.append_cancel_left same
      exact .inr ⟨some_, part, fuel', s'', done⟩
    · rintro (nothing | ⟨-, -, fuel, s'', done⟩)
      · exact absurd (List.append_eq_nil_iff.mp nothing).1 some_
      · refine ⟨fuel + b.length, s'', ?_⟩
        rw [equal]
        exact (lsLoop_buffered at_.opened at_.bytes at_.inside at_.short _ _ s'').mpr ⟨fuel, _, rfl, rfl, done⟩
  · -- A message that is filled is lost with the end of the directory.
    obtain ⟨-, only⟩ := lsLoop_end opened empty none_
    constructor
    · rintro ⟨fuel, s', done⟩
      exact .inl (List.map_eq_nil_iff.mp (only fuel _ s' done))
    · rintro (nothing | ⟨-, part, -⟩)
      · rw [nothing] at is
        subst is
        cases full
      · exact absurd full part
  · -- What follows a message that is filled is taken from elsewhere in the directory.
    have positive : 0 < (wires (b ++ [r])).length := wires_pos (by simp)
    have equal := lsLoop_filled opened empty filled at_.opened (by have inside := at_.inside; omega)
    refine iff_of_false ?_ ?_
    · rintro ⟨fuel, s'', done⟩
      rw [equal] at done
      obtain ⟨fuel', out, -, same, -⟩ := (lsLoop_buffered at_.opened at_.bytes at_.inside at_.short fuel _ s'').mp done
      rw [← split_, List.map_append, List.map_append, List.append_assoc] at same
      have next := List.append_cancel_left same
      have unit : vfsMaxIounit = 100 := rfl
      have first : (others.map StatRecord.dirent)[0]? = some r.dirent := by rw [next]; rfl
      have here : (rs.map StatRecord.dirent)[s.file.offset.toNat + b.length]? = some r.dirent := by
        have drop : others = rs.drop (s.file.offset.toNat + b.length) := by rw [← List.drop_drop, ← split_, List.drop_left]
        rw [drop, List.getElem?_map, List.getElem?_drop, Nat.add_zero] at first
        rw [List.getElem?_map, first]
      have far : (rs.map StatRecord.dirent)[s.file.offset.toNat + vfsMaxIounit]? = some r.dirent := by
        rw [List.getElem?_map, there]
        rfl
      have large := wires_large b
      have inside := (List.getElem?_eq_some_iff.mp here).1
      have one := (List.getElem?_inj inside distinct).mp (here.trans far.symm)
      rw [full, sizeofQid, sizeofLength] at large
      omega
    · rintro (nothing | ⟨-, part, -⟩)
      · rw [nothing] at is
        subst is
        cases full
      · exact part full

include lists in
/-- Listing a directory, readdir goes through all its entries, in order, and comes to an end behind them exactly where no
message is filled and none has room for no entry. -/
theorem ls_lists_iff (fid_ : s.file.fid = fid) (few : rs.length + bufsiz < 2 ^ 32) (distinct : (rs.map StatRecord.dirent).Nodup)
    (opened : s.file.has fOpen = true) (memory : s.file.buf ≠ 0 ∨ host.malloc s.requests ≠ 0) :
    (∃ fuel s', cmdLs host fuel s = some (rs.map StatRecord.dirent, s')) ↔ Batched rs := by
  -- The mask sets the flags of a directory and of a stream to be read, and leaves that of an open one.
  have mask {flag : BitVec 32} (set : (~~~(1 : BitVec 32)) <<< 1 &&& flag ≠ 0) : (rewinddir s).file.has flag = true := by
    refine bne_iff_ne.mpr fun zero => set ?_
    rw [rewinddir, BitVec.and_or_distrib_right] at zero
    exact (BitVec.or_eq_zero_iff.mp zero).2
  have open_ : DirOpened host fid (rewinddir s) := ⟨fid_, has_set _ _ _ opened, mask (by decide), mask (by decide), memory⟩
  exact lsLoop_iff lists few distinct open_ rfl (Nat.zero_le _)

end Listing

end Anthill
