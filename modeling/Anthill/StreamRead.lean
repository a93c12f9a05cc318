import Anthill.Run
import Anthill.Stdio

set_option autoImplicit false

namespace Anthill

open Bytes (Store)

/-- A server that answers with the bytes of a file, fewer than asked for only at its end. -/
def Host.Serves (host : Host) (content : List (BitVec 8)) : Prop :=
  ∀ t, host.read t = some ((content.drop t.offset.toNat).take t.count)

/-- A stream that has just been opened for reading at the start of a file. -/
structure ReadOpened (s : Stdio) : Prop where
  readable : s.file.has fRead = true
  start : s.file.offset = 0
  empty : s.file.rPos = s.file.rEnd

inductive ReadCall where
  | fgetc
  | fread (ptr n : Nat)

/-- A stream, and the bytes that its calls have delivered. -/
structure Reader where
  stdio : Stdio
  delivered : List (BitVec 8)

def ReadCall.run (host : Host) : ReadCall → Reader → Reader
  | .fgetc, r =>
    let (c, s) := Anthill.fgetc host r.stdio
    ⟨s, r.delivered ++ if c = eof then [] else [BitVec.ofInt 8 c]⟩
  | .fread ptr n, r =>
    let (read, s) := Anthill.fread host ptr 1 n r.stdio
    ⟨s, r.delivered ++ s.mem.bytes.bytes ptr read⟩

-- Where a call may store: the stream's buffer, and the caller's for the bytes asked for.
def ReadCall.MayStore (call : ReadCall) (s : Stdio) (a : Nat) : Prop :=
  s.file.buf ≠ 0 ∧ s.file.buf ≤ a ∧ a < s.file.buf + bufsiz ∨
    match call with
    | .fgetc => False
    | .fread ptr n => ptr ≤ a ∧ a < ptr + n

/-- The bytes delivered are the first of the file. -/
def Reader.Delivers (r : Reader) (content : List (BitVec 8)) : Prop :=
  r.delivered = content.take r.delivered.length

-- A call of fread finds nothing in the buffer.
def ReadCall.Fits (r : Reader) : ReadCall → Prop
  | .fgetc => True
  | .fread ptr n => n = 0 ∨ ptr ≠ 0 ∧ (r.stdio.file.buf = 0 ∨ r.stdio.file.rEnd = r.stdio.file.rPos)

def ReadCall.Step (host : Host) (r : Reader) (call : ReadCall) (r' : Reader) : Prop := r' = call.run host r

/-- A stream that stands at the end of what it has delivered, with the bytes that follow in its buffer. -/
structure Reading (content : List (BitVec 8)) (s : Stdio) (d : List (BitVec 8)) : Prop where
  readable : s.file.has fRead = true
  delivered : d = content.take s.file.offset.toNat
  within : s.file.offset.toNat ≤ content.length
  low : s.file.rPos ≤ s.file.rEnd
  unallocated : s.file.buf = 0 → s.file.rPos = s.file.rEnd
  ahead : s.mem.bytes.bytes s.file.rPos (s.file.rEnd - s.file.rPos) =
    (content.drop s.file.offset.toNat).take (s.file.rEnd - s.file.rPos)

/-- A call that goes on with the file where the stream stands, and stores only where it may. -/
def ReadCall.Continues (host : Host) (content : List (BitVec 8)) (call : ReadCall) (s : Stdio) (d : List (BitVec 8)) :
    Prop :=
  ∃ s' out, call.run host ⟨s, d⟩ = ⟨s', d ++ out⟩ ∧ Reading content s' (d ++ out) ∧
    ∀ a, a ∈ s'.mem.stores → a ∈ s.mem.stores ∨ call.MayStore s' a

theorem take_chunk {l bs : List (BitVec 8)} {n : Nat} (chunk : bs = l.take n) : l.take bs.length = bs := by
  rw [chunk, List.length_take, List.take_eq_take_iff]
  omega

theorem has_set (f : File) (flag more : BitVec 32) (set : f.has flag = true) :
    ({ f with flags := f.flags ||| more } : File).has flag = true := by
  have bits (g : File) : g.has flag = true ↔ g.flags &&& flag ≠ 0 := bne_iff_ne
  rw [bits] at set ⊢
  rw [BitVec.and_or_distrib_right]
  exact fun zero => set (BitVec.or_eq_zero_iff.mp zero).1

section Loop

variable {host : Host} {content : List (BitVec 8)} (serves : host.Serves content) (short : content.length < 2 ^ 63)

include serves short

/-- The loop of file_read brings the bytes of the file from the stream's offset on. -/
theorem readLoop_serves (fuel n cur : Nat) (s : Stdio) (enough : n ≤ cur + fuel)
    (within : s.file.offset.toNat + cur ≤ content.length) :
    ∃ s' bs, bs = (content.drop (s.file.offset.toNat + cur)).take (n - cur) ∧
      readLoop host fuel n cur s = .ok (cur + bs.length, s') ∧ s'.file = s.file ∧
      s'.mem.bytes = s.mem.bytes.write (s.file.buf + cur) bs ∧
      ∀ a, a ∈ s'.mem.stores → a ∈ s.mem.stores ∨ s.file.buf + cur ≤ a ∧ a < s.file.buf + n := by
  induction fuel generalizing cur s with
  | zero =>
    have none : n - cur = 0 := by omega
    exact ⟨s, [], by rw [none, List.take_zero], rfl, rfl, rfl, fun a member => .inl member⟩
  | succ fuel ih =>
    by_cases done : n ≤ cur
    · have none : n - cur = 0 := by omega
      exact ⟨s, [], by rw [none, List.take_zero], by rw [readLoop, if_pos done]; rfl, rfl, rfl,
        fun a member => .inl member⟩
    · obtain ⟨count, is, positive, most⟩ : ∃ count, min (n - cur) vfsMaxIounit = count ∧ 0 < count ∧ count ≤ n - cur := by
        have unit : vfsMaxIounit = 100 := rfl
        exact ⟨_, rfl, by omega, Nat.min_le_left _ _⟩
      have place : (s.file.offset + BitVec.ofNat 64 cur).toNat = s.file.offset.toNat + cur := by
        rw [BitVec.toNat_add, BitVec.toNat_ofNat]
        omega
      obtain ⟨data, chunk⟩ : ∃ data, (content.drop (s.file.offset.toNat + cur)).take count = data := ⟨_, rfl⟩
      have size : data.length = min count (content.length - (s.file.offset.toNat + cur)) := by
        rw [← chunk, List.length_take, List.length_drop]
      have all : min data.length count = data.length := by omega
      rw [readLoop, if_neg done]
      simp only [is, serves _, place, chunk, all, List.take_length]
      have stored (a : Nat) (member : a ∈ List.range' (s.file.buf + cur) data.length) :
          s.file.buf + cur ≤ a ∧ a < s.file.buf + cur + data.length := by
        rw [List.mem_range'_1] at member
        exact member
      split_ifs with ended
      · -- A reply that is shorter than asked for is the end of the file.
        refine ⟨_, data, ?_, rfl, rfl, rfl, fun a member => ?_⟩
        · rw [← chunk, List.take_of_length_le, List.take_of_length_le] <;> rw [List.length_drop] <;> omega
        · rcases List.mem_append.mp member with old | new
          · exact .inl old
          · have place := stored a new
            exact .inr ⟨place.1, by omega⟩
      · obtain ⟨s', bs, rest, result, file, bytes, stores⟩ := ih (cur + data.length) { s with
          tagCount := s.tagCount + 1, mem := s.mem.memcpy (s.file.buf + cur) data } (by omega) (by simp only; omega)
        have whole : data.length = count := by omega
        refine ⟨s', data ++ bs, ?_, ?_, file, ?_, fun a member => ?_⟩
        · have parts : n - cur = count + (n - (cur + data.length)) := by omega
          rw [parts, List.take_add, chunk, rest, List.drop_drop, whole]
          simp only [Nat.add_assoc]
        · rw [result, List.length_append, Nat.add_assoc]
        · rw [bytes, Cells.memcpy, Store.write_append]
          simp only [Nat.add_assoc]
        · rcases stores a member with old | ⟨above, below⟩
          · rcases List.mem_append.mp old with before | new
            · exact .inl before
            · have place := stored a new
              exact .inr ⟨place.1, by omega⟩
          · simp only at above below
            exact .inr ⟨by omega, below⟩

/-- file_read with a buffer and nothing in it brings the next bytes of the file. -/
theorem fileRead_serves (n : Nat) (s : Stdio) (buf : s.file.buf ≠ 0)
    (whole : ¬ (0 < ((s.file.rEnd : Int) - s.file.rPos) % sizeModulus ∧
      ((s.file.rEnd : Int) - s.file.rPos) % sizeModulus < n))
    (within : s.file.offset.toNat ≤ content.length) :
    ∃ s' bs, bs = (content.drop s.file.offset.toNat).take n ∧ fileRead host n s = (bs.length, s') ∧
      s'.file = { s.file with rPos := s.file.buf, rEnd := s.file.buf + bs.length } ∧
      s'.mem.bytes = s.mem.bytes.write s.file.buf bs ∧
      ∀ a, a ∈ s'.mem.stores → a ∈ s.mem.stores ∨ s.file.buf ≤ a ∧ a < s.file.buf + n := by
  obtain ⟨s', bs, chunk, result, file, bytes, stores⟩ :=
    readLoop_serves serves short n n 0 s (by omega) (by omega)
  rw [Nat.zero_add] at result
  refine ⟨{ s' with file := { s.file with rPos := s.file.buf, rEnd := s.file.buf + bs.length } }, bs, chunk, ?_, rfl,
    bytes, stores⟩
  rw [fileRead, needBuf, if_neg buf]
  simp only [whole, if_false, result, file]

end Loop

section Calls

variable {content : List (BitVec 8)} {s : Stdio} {d : List (BitVec 8)} (reading : Reading content s d)

include reading

theorem Reading.delivers : d = content.take d.length := by
  have size : d.length = s.file.offset.toNat := by
    rw [reading.delivered, List.length_take, Nat.min_eq_left reading.within]
  rw [size]
  exact reading.delivered

/-- A byte that is in the buffer is the next of the file. -/
theorem Reading.nextByte (short : content.length < 2 ^ 63) (some : s.file.rPos < s.file.rEnd) : ∃ b : BitVec 8,
    (nextByte s).1 = b.toNat ∧ Reading content (nextByte s).2 (d ++ [b]) ∧ (nextByte s).2.mem = s.mem ∧
      (nextByte s).2.file.buf = s.file.buf := by
  obtain ⟨k, left⟩ : ∃ k, s.file.rEnd - s.file.rPos = k + 1 := ⟨s.file.rEnd - s.file.rPos - 1, by omega⟩
  have ahead := reading.ahead
  rw [left, Store.bytes] at ahead
  have inside : s.file.offset.toNat < content.length := by
    have sizes := congrArg List.length ahead
    simp only [List.length_cons, Store.length_bytes, List.length_take, List.length_drop] at sizes
    omega
  rw [List.drop_eq_getElem_cons inside, List.take_succ_cons] at ahead
  obtain ⟨head, tail⟩ := List.cons.inj ahead
  have notEnd : s.file.offset ≠ -1 := by
    rintro is
    have top : (-1 : BitVec 64).toNat = 18446744073709551615 := by decide
    rw [is, top] at inside
    omega
  have next : (s.file.offset + 1).toNat = s.file.offset.toNat + 1 := by
    have one : (1 : BitVec 64).toNat = 1 := rfl
    rw [BitVec.toNat_add, one]
    omega
  have offset : (if s.file.offset = -1 then s.file.offset else s.file.offset + 1) = s.file.offset + 1 := if_neg notEnd
  refine ⟨s.mem.bytes s.file.rPos, rfl, ?_, rfl, rfl⟩
  simp only [Anthill.nextByte, offset]
  constructor
  case readable => exact reading.readable
  case delivered => rw [next, List.take_succ_eq_append_getElem inside, head, reading.delivered]
  case within =>
    rw [next]
    omega
  case low => exact some
  case unallocated =>
    intro none
    have same := reading.unallocated none
    omega
  case ahead =>
    have rest : s.file.rEnd - (s.file.rPos + 1) = k := by omega
    rw [next, rest]
    exact tail

/-- The stream has a buffer after needBuf, unless memory ran out. -/
theorem Reading.needBuf (host : Host) (empty : s.file.rPos = s.file.rEnd) : ∃ ok s', needBuf host s = (ok, s') ∧
    Reading content s' d ∧ s'.mem = s.mem ∧ s'.file.rPos = s'.file.rEnd ∧ (ok = true → s'.file.buf ≠ 0) := by
  by_cases none : s.file.buf = 0
  · rw [Anthill.needBuf, if_pos none]
    by_cases failed : host.malloc s.requests = 0
    · refine ⟨false, _, if_pos failed, ?_, rfl, empty, Bool.noConfusion⟩
      exact ⟨reading.readable, reading.delivered, reading.within, reading.low, fun _ => empty, reading.ahead⟩
    · have ends : (s.file.attach (host.malloc s.requests)).rPos = host.malloc s.requests ∧
          (s.file.attach (host.malloc s.requests)).rEnd = host.malloc s.requests :=
        ⟨if_pos reading.readable, if_pos reading.readable⟩
      have same := ends.1.trans ends.2.symm
      refine ⟨true, _, if_neg failed, ?_, rfl, same, fun _ => failed⟩
      refine ⟨reading.readable, reading.delivered, reading.within, same.le, fun _ => same, ?_⟩
      simp only [same, Nat.sub_self, Store.bytes, List.take_zero]
  · exact ⟨true, s, by rw [Anthill.needBuf, if_neg none], reading, rfl, empty, fun _ => none⟩

variable {host : Host} (serves : host.Serves content) (short : content.length < 2 ^ 63)

include serves short

/-- An empty buffer is filled with the bytes that follow. -/
theorem Reading.fill (n : Nat) (empty : s.file.rPos = s.file.rEnd) (buf : s.file.buf ≠ 0) :
    ∃ k s', fileRead host n s = (k, s') ∧ Reading content s' d ∧ s'.file.buf = s.file.buf ∧
      s'.file.rEnd = s'.file.rPos + k ∧
      ∀ a, a ∈ s'.mem.stores → a ∈ s.mem.stores ∨ s.file.buf ≤ a ∧ a < s.file.buf + n := by
  have none : ((s.file.rEnd : Int) - s.file.rPos) % sizeModulus = 0 := by
    rw [empty, Int.sub_self, Int.zero_emod]
  obtain ⟨s', bs, chunk, result, file, bytes, stores⟩ :=
    fileRead_serves serves short n s buf (by rw [none]; exact fun both => lt_irrefl _ both.1) reading.within
  refine ⟨bs.length, s', result, ?_, by rw [file], by rw [file], stores⟩
  have size : bs.length ≤ n := by
    rw [chunk]
    exact List.length_take_le _ _
  constructor
  case readable =>
    rw [file]
    exact reading.readable
  case delivered =>
    rw [file]
    exact reading.delivered
  case within =>
    rw [file]
    exact reading.within
  case low =>
    rw [file]
    exact Nat.le_add_right _ _
  case unallocated =>
    rw [file]
    exact fun missing => absurd missing buf
  case ahead =>
    rw [file, bytes]
    simp only [Nat.add_sub_cancel_left, Store.bytes_write]
    exact (take_chunk chunk).symm

omit serves short reading in
-- A call of fgetc that returns EOF.
theorem fgetc_nothing (s' : Stdio) (stays : Reading content s' d) (is : fgetc host s = (eof, s'))
    (stores : ∀ a, a ∈ s'.mem.stores → a ∈ s.mem.stores ∨ ReadCall.fgetc.MayStore s' a) :
    ReadCall.fgetc.Continues host content s d :=
  ⟨s', [], by simp only [ReadCall.run, is, if_true], by rw [List.append_nil]; exact stays, stores⟩

omit serves reading in
theorem fgetc_next (s' : Stdio) (there : Reading content s' d) (some : s'.file.rPos < s'.file.rEnd)
    (is : fgetc host s = nextByte s')
    (stores : ∀ a, a ∈ s'.mem.stores → a ∈ s.mem.stores ∨ ReadCall.fgetc.MayStore s' a) :
    ReadCall.fgetc.Continues host content s d := by
  obtain ⟨b, byte, after, mem, buf⟩ := there.nextByte short some
  refine ⟨_, [b], ?_, after, fun a member => ?_⟩
  · have notEof : ¬ ((b.toNat : Int) = eof) := by
      rw [eof]
      omega
    simp only [ReadCall.run, is, byte, notEof, if_false]
    simp
  · rw [mem] at member
    rw [ReadCall.MayStore, buf]
    exact stores a member

/-- fgetc delivers the next byte of the file or nothing. -/
theorem Reading.fgetc : ReadCall.fgetc.Continues host content s d := by
  by_cases ended : s.file.has fEof = true
  · exact fgetc_nothing s reading (by rw [Anthill.fgetc, if_pos ended]) fun a member => .inl member
  · have readable := reading.readable
    by_cases empty : s.file.rPos = s.file.rEnd
    · have called : Anthill.fgetc host s = filledByte (fileRead host bufsiz s) := by
        simp only [Anthill.fgetc, ended, readable, empty, if_true, if_false, Bool.not_true, Bool.false_eq_true]
      obtain ⟨ok, s₁, allocated, there, mem, empty₁, buf⟩ := reading.needBuf host empty
      cases ok with
      | false =>
        have dry : fileRead host bufsiz s = (0, s₁) := by rw [fileRead, allocated]
        exact fgetc_nothing s₁ there (by rw [called, dry, filledByte]) fun a member => .inl (mem ▸ member)
      | true =>
        have again : fileRead host bufsiz s = fileRead host bufsiz s₁ := by
          rw [fileRead, allocated, fileRead, Anthill.needBuf, if_neg (buf rfl)]
        obtain ⟨k, s₂, result, filled, same, ends, stores⟩ := there.fill serves short bufsiz empty₁ (buf rfl)
        rw [mem, ← same] at stores
        have mayStore (a : Nat) (member : a ∈ s₂.mem.stores) : a ∈ s.mem.stores ∨ ReadCall.fgetc.MayStore s₂ a :=
          (stores a member).imp id fun inside => .inl ⟨by rw [same]; exact buf rfl, inside⟩
        cases k with
        | zero => exact fgetc_nothing s₂ filled (by rw [called, again, result, filledByte]) mayStore
        | succ k => exact fgetc_next short s₂ filled (by omega) (by rw [called, again, result, filledByte]) mayStore
    · have low := reading.low
      refine fgetc_next short s reading (by omega) ?_ fun a member => .inl member
      simp only [Anthill.fgetc, ended, readable, empty, if_false, Bool.not_true, Bool.false_eq_true]

/-- fread delivers bytes of the file when none are left in the buffer. -/
theorem Reading.fread (ptr n : Nat) (fits : (ReadCall.fread ptr n).Fits ⟨s, d⟩) :
    (ReadCall.fread ptr n).Continues host content s d := by
  by_cases zero : n = 0
  · have none : Anthill.fread host ptr 1 n s = (0, s) := if_pos (.inr zero)
    exact ⟨s, [], by simp only [ReadCall.run, none, Store.bytes], by rw [List.append_nil]; exact reading,
      fun a member => .inl member⟩
  · obtain ⟨some, drained⟩ : ptr ≠ 0 ∧ (s.file.buf = 0 ∨ s.file.rEnd = s.file.rPos) := fits.resolve_left zero
    obtain ⟨total, is, most⟩ : ∃ total, 1 * n % sizeModulus = total ∧ total ≤ n :=
      ⟨_, rfl, by rw [Nat.one_mul]; exact Nat.mod_le _ _⟩
    have empty : s.file.rEnd = s.file.rPos := drained.elim (fun missing => (reading.unallocated missing).symm) id
    have nothing : drain ptr total s = (0, total, s) := if_neg fun both => both.2 empty
    have bound : total < sizeModulus := is ▸ Nat.mod_lt _ (by decide)
    have window : (((ptr + total : Nat) : Int) - (ptr + 0 : Nat)) % sizeModulus = total := by
      rw [sizeModulus] at *
      omega
    obtain ⟨s', bs, chunk, result, file, bytes, stores⟩ := fileRead_serves serves short (total % intModulus)
      { s with file := { s.file with buf := ptr, rPos := ptr + 0, rEnd := ptr + total } } some (by
        rw [window]
        have less := Nat.mod_le total intModulus
        omega) reading.within
    have size : bs.length ≤ total % intModulus := by
      rw [chunk]
      exact List.length_take_le _ _
    have less := Nat.mod_le total intModulus
    have ends : s.file.offset.toNat + bs.length ≤ content.length := by
      have sizes := congrArg List.length chunk
      have within := reading.within
      simp only [List.length_take, List.length_drop] at sizes
      omega
    have offset : (s.file.offset + BitVec.ofNat 64 bs.length).toNat = s.file.offset.toNat + bs.length := by
      rw [BitVec.toNat_add, BitVec.toNat_ofNat]
      omega
    obtain ⟨flags, are, readable⟩ : ∃ flags,
        (if bs.length < total then s.file.flags ||| fEof else s.file.flags) = flags ∧
          ({ s.file with flags := flags } : File).has fRead = true := by
      refine ⟨_, rfl, ?_⟩
      split_ifs
      · exact has_set s.file fRead fEof reading.readable
      · exact reading.readable
    have called : Anthill.fread host ptr 1 n s = (bs.length, { s' with file := { s.file with
        flags := flags, offset := s.file.offset + BitVec.ofNat 64 bs.length } }) := by
      simp only [Anthill.fread, is, nothing, result, file, are, zero, Nat.one_ne_zero, or_self, if_false, Nat.zero_add,
        Nat.div_one]
    have out : s'.mem.bytes.bytes ptr bs.length = bs := by rw [bytes, Store.bytes_write]
    refine ⟨{ s' with file := { s.file with
      flags := flags, offset := s.file.offset + BitVec.ofNat 64 bs.length } }, bs, ?_,
      ⟨readable, ?_, ?_, reading.low, reading.unallocated, ?_⟩, fun a member => ?_⟩
    · simp only [ReadCall.run, called, out]
    · rw [offset, List.take_add, take_chunk chunk, reading.delivered]
    · rw [offset]
      exact ends
    · simp only [empty, Nat.sub_self, Store.bytes, List.take_zero]
    · refine (stores a member).imp id fun inside => .inr ?_
      simp only at inside ⊢
      omega

end Calls

theorem ReadOpened.reading {s : Stdio} (opened : ReadOpened s) (content : List (BitVec 8)) : Reading content s [] where
  readable := opened.readable
  delivered := by
    rw [opened.start]
    rfl
  within := by
    rw [opened.start]
    exact Nat.zero_le _
  low := opened.empty.le
  unallocated _ := opened.empty
  ahead := by rw [opened.empty, Nat.sub_self, Store.bytes, List.take_zero]

section Runs

variable {host : Host} {content : List (BitVec 8)} (serves : host.Serves content) (short : content.length < 2 ^ 63)

include serves short

theorem Reading.call {r : Reader} (reading : Reading content r.stdio r.delivered) (call : ReadCall)
    (fits : call.Fits r) : call.Continues host content r.stdio r.delivered := by
  cases call with
  | fgetc => exact reading.fgetc serves short
  | fread ptr n => exact reading.fread serves short ptr n fits

/-- While fread finds no bytes left in the buffer, the calls deliver the file from its start, and store only in
the buffer and in what they are given. -/
theorem stream_delivers (r₀ r : Reader) (opened : ReadOpened r₀.stdio) (fresh : r₀.delivered = [])
    (run : Run (ReadCall.Step host) (fun r call => call.Fits r) r₀ r) :
    r.Delivers content ∧ ∀ call : ReadCall, call.Fits r → ∀ a, a ∈ (call.run host r).stdio.mem.stores →
      a ∈ r.stdio.mem.stores ∨ call.MayStore (call.run host r).stdio a := by
  have reading : Reading content r.stdio r.delivered := by
    refine run.invariant (fun r => Reading content r.stdio r.delivered) ?_ fun r call r' reading fits step => ?_
    · rw [fresh]
      exact opened.reading content
    · obtain ⟨s', out, result, after, -⟩ := reading.call serves short call fits
      rw [step, show call.run host r = _ from result]
      exact after
  refine ⟨reading.delivers, fun call fits a member => ?_⟩
  obtain ⟨s', out, result, -, stores⟩ := reading.call serves short call fits
  rw [show call.run host r = _ from result] at member ⊢
  exact stores a member

end Runs

-- A file of three bytes, in a stream that has been opened for it.
def smallFile : List (BitVec 8) := [0x61, 0x62, 0x63]

def smallHost : Host where
  malloc _ := 4096
  write _ := none
  read t := some ((smallFile.drop t.offset.toNat).take t.count)

def smallReader : Reader where
  stdio :=
    { file := ⟨2, fOpen ||| fRead, 0, 0, 0, 0, 0, 0⟩
      mem := ⟨fun _ => 0, []⟩
      tagCount := 0
      requests := 0
      errno := none
      sent := []
      accepted := [] }
  delivered := []

theorem smallReader_opened : ReadOpened smallReader.stdio := ⟨by decide, by decide, by decide⟩

theorem stream_delivers_small : (ReadCall.fgetc.run smallHost smallReader).Delivers smallFile :=
  (stream_delivers (fun _ => rfl) (by decide) smallReader _ smallReader_opened rfl
    (.next _ _ .fgetc .start trivial rfl)).1

/-- A call of fread after one of fgetc delivers more than it is asked for. -/
theorem fread_rereads : ¬ ∀ (host : Host) (content : List (BitVec 8)) (r₀ r : Reader), host.Serves content →
    content.length < 2 ^ 63 → ReadOpened r₀.stdio → r₀.delivered = [] →
    Run (ReadCall.Step host) (fun _ _ => True) r₀ r → r.Delivers content := by
  intro claim
  have delivers := claim smallHost smallFile smallReader _ (fun _ => rfl) (by decide) smallReader_opened rfl
    (.next _ _ (.fread 8192 2) (.next _ _ .fgetc .start trivial rfl) trivial rfl)
  revert delivers
  simp only [Reader.Delivers]
  decide +kernel

end Anthill
