import Anthill.Run
import Anthill.Stdio

set_option autoImplicit false

namespace Anthill

open Bytes (Store)

def sentBytes (sent : List Twrite) : List (BitVec 8) := sent.flatMap Twrite.data

/-- The cursors of a stream's buffer are in order, nothing outside it has been stored to, and every byte that
was accepted has been sent or is buffered. -/
structure Buffered (s : Stdio) : Prop where
  low : s.file.buf ≤ s.file.wPos
  high : s.file.wPos ≤ s.file.wEnd
  inside : ∀ a, a ∈ s.mem.stores → s.file.buf ≤ a ∧ a < s.file.wEnd
  kept : s.accepted = sentBytes s.sent ++ s.mem.bytes.bytes s.file.buf (s.file.wPos - s.file.buf)

/-- A stream that has just been opened for writing, with or without a buffer of its own. -/
structure Opened (s : Stdio) : Prop where
  writable : s.file.has fWrite = true
  empty : s.file.wPos = s.file.buf
  extent : s.file.wEnd = if s.file.buf = 0 then 0 else s.file.buf + bufsiz
  stores : s.mem.stores = []
  sent : s.sent = []
  accepted : s.accepted = []

inductive WriteCall where
  | fputc (c : BitVec 32)
  | fwrite (ptr : Store) (size nitems : Nat)
  | vfprintf (text : BitVec 64 → List (BitVec 8)) (format : List (BitVec 8)) (args : List (BitVec 64))
  | fflush

def WriteCall.run (host : Host) : WriteCall → Stdio → Stdio
  | .fputc c, s => (Anthill.fputc host c s).2
  | .fwrite ptr size nitems, s => (Anthill.fwrite host ptr size nitems s).2
  | .vfprintf text format args, s => (Anthill.vfprintf host text format args s).2
  | .fflush, s => (Anthill.fflush host s).2

def Stdio.fill (s : Stdio) : Nat := s.file.wPos - s.file.buf

def Stdio.room (s : Stdio) : Nat := if s.file.buf = 0 then bufsiz else s.file.wEnd - s.file.wPos

-- What a flush can send at once.
def Stdio.Flushable (s : Stdio) (more : Nat) : Prop := s.fill + more ≤ vfsMaxIounit

/-- The calls for which the buffer holds up: single bytes have room, an output that comes to a flush leaves
no more than one message takes, and any other output either stays in the buffer or does not fit at all. -/
def WriteCall.Fits (s : Stdio) : WriteCall → Prop
  | .fputc _ => 0 < s.room
  | .fwrite _ size nitems => size * nitems ≤ s.room
  | .vfprintf text format args =>
    let chars := formatChars text format args
    s.room < chars.length ∨ s.Flushable chars.length ∨
      s.fill + chars.length ≤ bufsiz / 2 ∧ chars.getLastD (s.mem.bytes (s.file.wPos - 1)) ≠ 0x0a
  | .fflush => s.Flushable 0

def WriteCall.Step (host : Host) (s : Stdio) (call : WriteCall) (s' : Stdio) : Prop := s' = call.run host s

/-- A server that takes every write in full. -/
def Host.WritesAll (host : Host) : Prop := ∀ t, host.write t = some (Fin.last _)

theorem has_or (f : File) (a b : BitVec 32) (set : f.has a = true) : f.has (a ||| b) = true ∧ f.has (b ||| a) = true := by
  have bits (c : BitVec 32) : f.has c = true ↔ f.flags &&& c ≠ 0 := bne_iff_ne
  rw [bits] at set ⊢
  rw [bits, BitVec.and_or_distrib_left, BitVec.and_or_distrib_left]
  constructor <;> intro zero <;> simp_all [BitVec.or_eq_zero_iff]

/-- A stream of which every call so far fitted. -/
structure Writing (s : Stdio) : Prop extends Buffered s where
  writable : s.file.has fWrite = true
  extent : s.file.wEnd = if s.file.buf = 0 then 0 else s.file.buf + bufsiz

theorem Writing.start {s : Stdio} (writable : s.file.has fWrite = true) (empty : s.file.wPos = s.file.buf)
    (extent : s.file.wEnd = if s.file.buf = 0 then 0 else s.file.buf + bufsiz) (stores : s.mem.stores = [])
    (accepted : s.accepted = sentBytes s.sent) : Writing s where
  low := empty.ge
  high := by
    rw [empty, extent]
    split_ifs <;> omega
  inside a member := by
    rw [stores] at member
    cases member
  kept := by rw [accepted, empty, Nat.sub_self, Store.bytes, List.append_nil]
  writable := writable
  extent := extent

theorem Opened.writing {s : Stdio} (opened : Opened s) : Writing s :=
  .start opened.writable opened.empty opened.extent opened.stores (by rw [opened.accepted, opened.sent]; rfl)

section Calls

variable {host : Host} {s : Stdio} (writing : Writing s)

include writing

theorem Writing.extent_of_buf (buf : s.file.buf ≠ 0) : s.file.wEnd = s.file.buf + bufsiz := by
  rw [writing.extent, if_neg buf]

-- Without a buffer nothing has been stored or is waiting.
theorem Writing.unallocated (none : s.file.buf = 0) :
    s.file.wPos = 0 ∧ s.mem.stores = [] ∧ s.accepted = sentBytes s.sent := by
  have extent := writing.extent
  rw [if_pos none] at extent
  have high := writing.high
  have position : s.file.wPos = 0 := by omega
  refine ⟨position, List.eq_nil_iff_forall_not_mem.mpr fun a member => ?_, ?_⟩
  · have inside := writing.inside a member
    omega
  · have kept := writing.kept
    rw [position, Nat.zero_sub, Store.bytes, List.append_nil] at kept
    exact kept

theorem Writing.alloc (none : s.file.buf = 0) : ∃ ok s', fileAlloc host s = (ok, s') ∧ Writing s' ∧ s'.fill = 0 ∧
    s'.room = bufsiz ∧ (ok = true → s'.file.buf ≠ 0) := by
  obtain ⟨position, stores, accepted⟩ := writing.unallocated none
  have extent := writing.extent
  rw [if_pos none] at extent
  by_cases failed : host.malloc s.requests = 0
  · refine ⟨false, _, if_pos failed, .start writing.writable position ?_ stores accepted, ?_, rfl, Bool.noConfusion⟩
    · exact extent
    · exact (Nat.sub_zero _).trans position
  · have ends : (s.file.attach (host.malloc s.requests)).wPos = host.malloc s.requests ∧
        (s.file.attach (host.malloc s.requests)).wEnd = host.malloc s.requests + bufsiz :=
      ⟨if_pos writing.writable, if_pos writing.writable⟩
    refine ⟨true, _, if_neg failed, .start writing.writable ends.1 ?_ stores accepted, ?_, ?_, fun _ => failed⟩
    · exact ends.2.trans (if_neg failed).symm
    · exact (congrArg (· - _) ends.1).trans (Nat.sub_self _)
    · refine (if_neg failed).trans ?_
      rw [ends.1, ends.2, Nat.add_sub_cancel_left]

/-- After needBuf a stream has a buffer, unless memory ran out. Nothing else has changed. -/
theorem Writing.needBuf_cases : ∃ ok s', needBuf host s = (ok, s') ∧ Writing s' ∧ s'.fill = s.fill ∧ s'.room = s.room ∧
    (ok = true → s'.file.buf ≠ 0 ∧ (s.file.buf ≠ 0 → s' = s)) := by
  by_cases none : s.file.buf = 0
  · obtain ⟨ok, s', result, after, fill, room, buf⟩ := writing.alloc none
    refine ⟨ok, s', by rw [needBuf, if_pos none, result], after, ?_, ?_, fun fine => ⟨buf fine, fun some => absurd none some⟩⟩
    · rw [fill, Stdio.fill, (writing.unallocated none).1, Nat.zero_sub]
    · rw [room, Stdio.room, if_pos none]
  · exact ⟨true, s, by rw [needBuf, if_neg none], writing, rfl, rfl, fun _ => ⟨none, fun _ => rfl⟩⟩

/-- Accepted bytes that are stored at the write position. -/
theorem Writing.extend (m : Cells) (cs : List (BitVec 8)) (fits : s.file.wPos + cs.length ≤ s.file.wEnd)
    (bytes : m.bytes = s.mem.bytes.write s.file.wPos cs)
    (stores : ∀ a, a ∈ m.stores → a ∈ s.mem.stores ∨ s.file.wPos ≤ a ∧ a < s.file.wEnd) :
    Writing { s with
      mem := m, file := { s.file with wPos := s.file.wPos + cs.length }, accepted := s.accepted ++ cs } where
  low := writing.low.trans (Nat.le_add_right _ _)
  high := fits
  inside a member := by
    have low := writing.low
    rcases stores a member with old | ⟨above, below⟩
    · exact writing.inside a old
    · exact ⟨low.trans above, below⟩
  kept := by
    have low := writing.low
    have split : s.file.wPos + cs.length - s.file.buf = (s.file.wPos - s.file.buf) + cs.length := by omega
    have there : s.file.buf + (s.file.wPos - s.file.buf) = s.file.wPos := by omega
    simp only [split, Store.bytes_add, there, bytes, Store.bytes_write, writing.kept, List.append_assoc]
    congr 2
    exact Store.bytes_congr fun x _ high => (Store.write_outside _ _ _ _ (.inl (by omega))).symm
  writable := writing.writable
  extent := writing.extent

theorem Writing.fputc (c : BitVec 32) (room : 0 < s.room) :
    Writing (fputc host c s).2 ∧ s.room ≤ (fputc host c s).2.room + 1 := by
  obtain ⟨ok, s', result, writing', -, same, allocated⟩ := @Writing.needBuf_cases host s writing
  rw [Anthill.fputc, result]
  cases ok with
  | false => exact ⟨writing', by simp only [same]; omega⟩
  | true =>
    have buf := (allocated rfl).1
    have extent := writing'.extent_of_buf buf
    have positive : 0 < bufsiz := by decide
    have high := writing'.high
    have left : s.room = s'.file.wEnd - s'.file.wPos := by rw [← same, Stdio.room, if_neg buf]
    have some : ¬ s'.file.buf = s'.file.wEnd := by omega
    simp only [some, if_false]
    refine ⟨writing'.extend (s'.mem.store s'.file.wPos (c.setWidth 8)) [c.setWidth 8] ?_ rfl fun a member => ?_, ?_⟩
    · simp only [List.length_singleton]
      omega
    · rcases List.mem_append.mp member with old | new
      · exact .inl old
      · obtain rfl := List.mem_singleton.mp new
        exact .inr ⟨le_rfl, by omega⟩
    · rw [left, Stdio.room, if_neg buf]
      simp only
      omega

theorem Writing.putBytes (bs : List (BitVec 8)) (fits : bs.length ≤ s.room) :
    Writing (putBytes host s bs) ∧ s.room ≤ (putBytes host s bs).room + bs.length := by
  induction bs generalizing s with
  | nil => exact ⟨writing, le_rfl⟩
  | cons b bs ih =>
    rw [List.length_cons] at fits ⊢
    obtain ⟨next, less⟩ := @Writing.fputc host s writing (b.setWidth 32) (by omega)
    obtain ⟨last, rest⟩ := ih next (by omega)
    have unfolded : Anthill.putBytes host s (b :: bs) =
        Anthill.putBytes host (Anthill.fputc host (b.setWidth 32) s).2 bs := rfl
    rw [unfolded]
    exact ⟨last, by omega⟩

theorem Writing.putItems (ptr : Store) (size : Nat) (items : List Nat) (fits : size * items.length ≤ s.room) :
    Writing (items.foldl (fun s i => Anthill.putBytes host s (ptr.bytes (i * size) size)) s) := by
  induction items generalizing s with
  | nil => exact writing
  | cons i items ih =>
    rw [List.length_cons, Nat.mul_succ] at fits
    obtain ⟨next, less⟩ := @Writing.putBytes host _ writing (ptr.bytes (i * size) size) (by
      rw [Store.length_bytes]
      omega)
    rw [Store.length_bytes] at less
    rw [List.foldl_cons]
    refine ih next ?_
    omega

omit writing in
theorem writeLoop_done (fuel bytesSent : Nat) : writeLoop host fuel 0 bytesSent s = .ok (bytesSent, s) := by
  cases fuel <;> rfl

omit writing in
-- One message takes all that is buffered.
theorem writeLoop_once (full : host.WritesAll) (n : Nat) (small : n ≤ vfsMaxIounit) :
    ∃ s', writeLoop host n n 0 s = .ok (n, s') ∧ s'.mem = s.mem ∧ s'.accepted = s.accepted ∧
      s'.file = { s.file with offset := s'.file.offset } ∧
      sentBytes s'.sent = sentBytes s.sent ++ s.mem.bytes.bytes s.file.buf n := by
  cases n with
  | zero => exact ⟨s, rfl, rfl, rfl, rfl, by rw [Store.bytes, List.append_nil]⟩
  | succ n =>
    have count : min (n + 1) vfsMaxIounit = n + 1 := Nat.min_eq_left small
    simp only [writeLoop, Nat.add_one_ne_zero, if_false, count, full _, Fin.val_last, Store.length_bytes,
      Nat.lt_irrefl, Nat.sub_self, Nat.zero_add, writeLoop_done]
    refine ⟨_, rfl, rfl, rfl, rfl, ?_⟩
    simp [sentBytes, List.take_of_length_le]

/-- A flush of no more bytes than one message takes empties the buffer. -/
theorem Writing.fflush (full : host.WritesAll) (small : s.Flushable 0) :
    Writing (fflush host s).2 ∧ (fflush host s).2.file.wPos = (fflush host s).2.file.buf := by
  obtain ⟨opened, writable⟩ := has_or s.file fWrite fOpen writing.writable
  have unit : vfsMaxIounit = 100 := rfl
  have size : bufsiz = 512 := rfl
  have low := writing.low
  have high := writing.high
  rw [Stdio.Flushable, Stdio.fill, unit] at small
  by_cases none : s.file.buf = 0
  · have same : Anthill.fflush host s = (0, s) := by
      simp only [Anthill.fflush, writable, fileWrite, opened, none, true_or, if_true, Bool.not_true, Bool.false_eq_true,
        if_false]
    rw [same]
    exact ⟨writing, by rw [none, (writing.unallocated none).1]⟩
  · have extent := writing.extent_of_buf none
    have left : ¬ ((s.file.wEnd : Int) - s.file.wPos) % intModulus = 0 := by
      rw [intModulus]
      omega
    have buffered : (((s.file.wPos : Int) - s.file.buf) % intModulus).toNat = s.fill := by
      rw [Stdio.fill, intModulus]
      omega
    obtain ⟨s', sends, mem, accepted, file, sent⟩ := writeLoop_once (s := s) full s.fill (by
      rw [Stdio.fill, unit]
      omega)
    obtain ⟨f, is, flags, buf, wEnd⟩ : ∃ f, (if s'.file.has fAppend then { s'.file with offset := -1 } else s'.file) = f ∧
        f.flags = s.file.flags ∧ f.buf = s.file.buf ∧ f.wEnd = s.file.wEnd := by
      refine ⟨_, rfl, ?_⟩
      rw [file]
      split_ifs <;> exact ⟨rfl, rfl, rfl⟩
    simp only [Anthill.fflush, writable, fileWrite, opened, none, left, buffered, sends, or_self, Bool.not_true,
      Bool.false_eq_true, if_false, is]
    refine ⟨⟨⟨le_rfl, ?_, fun a member => ?_, ?_⟩, ?_, ?_⟩, trivial⟩
    · show f.buf ≤ f.wEnd
      omega
    · show f.buf ≤ a ∧ a < f.wEnd
      rw [buf, wEnd]
      exact writing.inside a (mem ▸ member)
    · simp only [Nat.sub_self, Store.bytes, List.append_nil, accepted, sent]
      exact writing.kept
    · rw [File.has, flags]
      exact writing.writable
    · show f.wEnd = _
      rw [wEnd, buf]
      exact writing.extent

-- Stores behind the write position do not matter.
theorem Writing.scribble (m : Cells) (errno : Option Errno) (bytes : ∀ a, a < s.file.wPos → m.bytes a = s.mem.bytes a)
    (stores : ∀ a, a ∈ m.stores → a ∈ s.mem.stores ∨ s.file.wPos ≤ a ∧ a < s.file.wEnd) :
    Writing { s with mem := m, errno := errno } where
  low := writing.low
  high := writing.high
  inside a member := by
    have low := writing.low
    rcases stores a member with old | ⟨above, below⟩
    · exact writing.inside a old
    · exact ⟨low.trans above, below⟩
  kept := by
    have low := writing.low
    rw [writing.kept]
    congr 1
    exact Store.bytes_congr fun x _ high => (bytes x (by omega)).symm
  writable := writing.writable
  extent := writing.extent

omit writing in
theorem write_last (m : Store) (a : Nat) (cs : List (BitVec 8)) :
    m.write a cs (a + cs.length - 1) = cs.getLastD (m (a - 1)) := by
  rcases List.eq_nil_or_concat cs with rfl | ⟨cs, c, rfl⟩
  · rfl
  · rw [List.concat_eq_append, Store.write_append, List.length_append, List.length_singleton, List.getLastD_concat]
    exact if_pos rfl

theorem Writing.vfprintf (full : host.WritesAll) (text : BitVec 64 → List (BitVec 8)) (format : List (BitVec 8))
    (args : List (BitVec 64)) (fits : (WriteCall.vfprintf text format args).Fits s) :
    Writing (vfprintf host text format args s).2 := by
  have size : bufsiz = 512 := rfl
  have unit : vfsMaxIounit = 100 := rfl
  obtain ⟨ok, s', result, writing', fill, room, allocated⟩ := @Writing.needBuf_cases host s writing
  rw [Anthill.vfprintf, result]
  cases ok with
  | false => exact writing'
  | true =>
    obtain ⟨buf, same⟩ := allocated rfl
    have low := writing'.low
    have high := writing'.high
    have extent := writing'.extent_of_buf buf
    have left : s.room = s'.file.wEnd - s'.file.wPos := by rw [← room, Stdio.room, if_neg buf]
    have n : ((s'.file.wEnd : Int) - s'.file.wPos).bmod intModulus = s.room := by
      rw [bmod_int _ (by omega) (by omega)]
      omega
    have again : (s.room : Int).bmod intModulus = s.room := bmod_int _ (by omega) (by omega)
    simp only [formatter, n, again]
    clear n again
    have stores (a : Nat) (member : a ∈ (putChars s'.mem s'.file.wPos 0 s.room (formatChars text format args)).stores) :
        a ∈ s'.mem.stores ∨ s'.file.wPos ≤ a ∧ a < s'.file.wEnd := by
      refine (putChars_stores _ _ _ _ _ a member).imp id fun ⟨above, below⟩ => ⟨above, ?_⟩
      omega
    have cases : s.room < (formatChars text format args).length ∨ s.Flushable (formatChars text format args).length ∨
        s.fill + (formatChars text format args).length ≤ bufsiz / 2 ∧
          (formatChars text format args).getLastD (s.mem.bytes (s.file.wPos - 1)) ≠ 0x0a := fits
    clear fits
    generalize formatChars text format args = cs at *
    by_cases rejected : (s.room : Int) < cs.length
    · simp only [rejected, if_true]
      exact writing'.scribble _ _ (fun a below => putChars_below _ _ _ _ _ a below) stores
    · have short : s'.file.wPos + cs.length ≤ s'.file.wEnd := by omega
      have bytes := putChars_fits s'.mem s'.file.wPos 0 s.room cs (by omega)
      rw [Nat.add_zero] at bytes
      have next := writing'.extend _ cs short bytes stores
      simp only [rejected, if_false]
      by_cases flushable : s.Flushable cs.length
      · split_ifs with flushes
        · refine (next.fflush full ?_).1
          rw [Stdio.Flushable, ← fill, Stdio.fill] at flushable
          rw [Stdio.Flushable, Stdio.fill]
          simp only
          omega
        · exact next
      · obtain ⟨few, last⟩ : s.fill + cs.length ≤ bufsiz / 2 ∧ cs.getLastD (s.mem.bytes (s.file.wPos - 1)) ≠ 0x0a := by
          rcases cases with long | now | stays
          · omega
          · exact absurd now flushable
          · exact stays
        rw [Stdio.fill] at fill
        rw [if_neg]
        · exact next
        · simp only [bytes, write_last, not_or, not_lt]
          refine ⟨?_, by omega⟩
          by_cases none : cs = []
          · -- A stream with no output that cannot be flushed has had a buffer before.
            have had : s.file.buf ≠ 0 := fun missing => by
              have position := (writing.unallocated missing).1
              rw [Stdio.Flushable, Stdio.fill, none, List.length_nil] at flushable
              omega
            rw [same had]
            exact last
          · rw [List.getLastD_eq_getLast?, List.getLast?_eq_getLast_of_ne_nil none] at last ⊢
            exact last

theorem Writing.run (full : host.WritesAll) (call : WriteCall) (fits : call.Fits s) : Writing (call.run host s) := by
  cases call with
  | fputc c => exact (writing.fputc c fits).1
  | fwrite ptr size nitems =>
    simp only [WriteCall.run, Anthill.fwrite]
    split_ifs
    · exact writing
    · exact writing.putItems ptr size _ (by rw [List.length_range]; exact fits)
  | vfprintf text format args => exact writing.vfprintf full text format args fits
  | fflush => exact (writing.fflush full fits).1

end Calls

/-- While single bytes have room and no flush has more to send than one message takes, the buffer of a stream
loses no byte, and a flush empties it. -/
theorem stream_buffered (host : Host) (full : host.WritesAll) (s₀ s : Stdio) (opened : Opened s₀)
    (run : Run (WriteCall.Step host) (fun s call => call.Fits s) s₀ s) :
    Buffered s ∧ (WriteCall.fflush.Fits s → (fflush host s).2.file.wPos = (fflush host s).2.file.buf) := by
  have writing : Writing s := run.invariant Writing opened.writing fun s call s' writing fits step => by
    rw [step]
    exact writing.run full call fits
  exact ⟨writing.toBuffered, fun fits => (writing.fflush full fits).2⟩

-- A stream with the buffer of stdout.
def freshStream (buf : Nat) : Stdio where
  file := ⟨1, fOpen ||| fWrite, 0, buf, 0, 0, buf, buf + bufsiz⟩
  mem := ⟨fun _ => 0, []⟩
  tagCount := 0
  requests := 0
  errno := none
  sent := []
  accepted := []

def fullHost : Host where
  malloc _ := 0
  write _ := some (Fin.last _)
  read _ := none

theorem freshStream_opened : Opened (freshStream 4096) := by
  constructor <;> decide

theorem stream_buffered_flush : Buffered ((WriteCall.fputc 0x41).run fullHost (freshStream 4096)) :=
  (stream_buffered fullHost (fun _ => rfl) _ _ freshStream_opened
    (.next _ _ (.fputc 0x41) .start (show 0 < (freshStream 4096).room by decide) rfl)).1

/-- A write of one byte more than the buffer holds is stored behind it. -/
theorem fwrite_overruns : ¬ ∀ (host : Host) (s₀ s : Stdio), host.WritesAll → Opened s₀ →
    Run (WriteCall.Step host) (fun _ _ => True) s₀ s → Buffered s := by
  intro claim
  have buffered := claim fullHost (freshStream 4096) _ (fun _ => rfl) freshStream_opened
    (.next _ _ (.fwrite (fun _ => 0x41) 1 513) .start trivial rfl)
  have high := buffered.high
  revert high
  decide +kernel

end Anthill
