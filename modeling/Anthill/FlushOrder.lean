import Anthill.StreamWrite

set_option autoImplicit false

namespace Anthill

open Bytes (Store)

/-- An open stream with `n` bytes in its buffer, and room for more. -/
structure FlushReady (s : Stdio) (n : Nat) : Prop where
  opened : s.file.has (fWrite ||| fOpen) = true
  buf : s.file.buf ≠ 0
  wPos : s.file.wPos = s.file.buf + n
  wEnd : s.file.wEnd = s.file.buf + bufsiz
  positive : 0 < n
  room : n < bufsiz

-- Bytes and the places of the file that they are sent for.
def placed (offset : BitVec 64) (data : List (BitVec 8)) : List (BitVec 64 × BitVec 8) :=
  data.mapIdx fun i b => (offset + BitVec.ofNat 64 i, b)

/-- A flush returns `n`, writes byte `i` of the buffer to place `i` from the offset on, once, and moves the offset. -/
def Flushes (host : Host) (s : Stdio) (n : Nat) : Prop :=
  (fileWrite host s).1 = n ∧
    (∃ new, (fileWrite host s).2.sent = s.sent ++ new ∧
      (new.flatMap fun t => placed t.offset t.data).Perm (placed s.file.offset (s.mem.bytes.bytes s.file.buf n))) ∧
    (fileWrite host s).2.file.offset = if s.file.has fAppend then -1 else s.file.offset + BitVec.ofNat 64 n

section Loop

variable {host : Host} (full : host.WritesAll)

include full

/-- A turn of the loop. -/
theorem writeLoop_turn (fuel remaining bytesSent : Nat) (s : Stdio) (more : remaining ≠ 0) :
    let count := min remaining vfsMaxIounit
    ∃ t s', t.offset = s.file.offset + BitVec.ofNat 64 bytesSent ∧ t.data = s.mem.bytes.bytes s.file.buf count ∧
      writeLoop host (fuel + 1) remaining bytesSent s = writeLoop host fuel (remaining - count) (bytesSent + count) s' ∧
      s'.sent = s.sent ++ [t] ∧ s'.mem = s.mem ∧
      s'.file = { s.file with offset := s.file.offset + BitVec.ofNat 64 (bytesSent + count) } := by
  intro count
  have whole : (s.mem.bytes.bytes s.file.buf count).take count = s.mem.bytes.bytes s.file.buf count :=
    List.take_of_length_le (by rw [Store.length_bytes])
  simp only [writeLoop, more, if_false, full _, Fin.val_last, Store.length_bytes, Nat.lt_irrefl]
  refine ⟨_, _, rfl, ?_, rfl, rfl, rfl, rfl⟩
  exact whole

/-- From the second turn on the messages leave a gap behind the first. -/
theorem writeLoop_gap (o : BitVec 64) (fuel : Nat) : ∀ (remaining bytesSent gap : Nat) (s : Stdio), remaining ≤ fuel →
    s.file.offset = o + BitVec.ofNat 64 gap → 100 ≤ gap → 100 ≤ bytesSent → bytesSent + remaining ≤ 512 →
    gap + 512 * remaining ≤ 262144 →
    ∃ new s', writeLoop host fuel remaining bytesSent s = .ok (bytesSent + remaining, s') ∧ s'.sent = s.sent ++ new ∧
      ∀ t ∈ new, ∀ b, (o + BitVec.ofNat 64 100, b) ∉ placed t.offset t.data := by
  induction fuel with
  | zero =>
    intro remaining bytesSent gap s enough offset low sent total bound
    obtain rfl : remaining = 0 := by omega
    exact ⟨[], s, rfl, (List.append_nil _).symm, fun t member => absurd member List.not_mem_nil⟩
  | succ fuel ih =>
    intro remaining bytesSent gap s enough offset low sent total bound
    by_cases done : remaining = 0
    · subst done
      exact ⟨[], s, rfl, (List.append_nil _).symm, fun t member => absurd member List.not_mem_nil⟩
    · obtain ⟨t, s', there, data, turn, kept, mem, file⟩ := writeLoop_turn full fuel remaining bytesSent s done
      have unit : vfsMaxIounit = 100 := rfl
      have moved : s'.file.offset = o + BitVec.ofNat 64 (gap + (bytesSent + min remaining vfsMaxIounit)) := by
        rw [file, offset, BitVec.add_assoc, ← BitVec.ofNat_add]
      obtain ⟨new, s'', is, all, away⟩ := ih (remaining - min remaining vfsMaxIounit)
        (bytesSent + min remaining vfsMaxIounit) (gap + (bytesSent + min remaining vfsMaxIounit)) s' (by omega) moved
        (by omega) (by omega) (by omega) (by omega)
      refine ⟨t :: new, s'', ?_, ?_, fun u member b => ?_⟩
      · rw [turn, is, Nat.add_assoc, Nat.add_sub_cancel' (Nat.min_le_left _ _)]
      · rw [all, kept, List.append_assoc, List.singleton_append]
      · rcases List.mem_cons.mp member with rfl | later
        · intro place
          obtain ⟨i, inside, is⟩ := List.mem_mapIdx.mp place
          rw [data, Store.length_bytes] at inside
          have same := congrArg Prod.fst is
          simp only [there, offset, BitVec.add_assoc, ← BitVec.ofNat_add, BitVec.add_right_inj] at same
          have value := congrArg BitVec.toNat same
          rw [BitVec.toNat_ofNat, BitVec.toNat_ofNat] at value
          omega
        · exact away u later b

end Loop

section Flush

variable {host : Host} (full : host.WritesAll) {s : Stdio} {n : Nat} (ready : FlushReady s n)

include ready

theorem FlushReady.fileWrite_eq (k : Nat) (s' : Stdio) (sends : writeLoop host n n 0 s = .ok (k, s')) :
    fileWrite host s = ((k : Int), { s' with file := { (if s'.file.has fAppend then { s'.file with offset := -1 } else s'.file) with
      wPos := (if s'.file.has fAppend then { s'.file with offset := -1 } else s'.file).buf } }) := by
  have size : bufsiz = 512 := rfl
  have positive := ready.positive
  have room := ready.room
  have left : ¬ ((s.file.wEnd : Int) - s.file.wPos) % intModulus = 0 := by
    rw [ready.wEnd, ready.wPos, intModulus]
    omega
  have buffered : (((s.file.wPos : Int) - s.file.buf) % intModulus).toNat = n := by
    rw [ready.wPos, intModulus]
    omega
  simp only [fileWrite, ready.opened, ready.buf, left, buffered, sends, or_self, Bool.not_true, Bool.false_eq_true,
    if_false]

include full

theorem FlushReady.flush_short (small : n ≤ vfsMaxIounit) : Flushes host s n := by
  obtain ⟨fuel, is⟩ := Nat.exists_eq_add_of_lt ready.positive
  obtain ⟨t, s', there, data, turn, kept, mem, file⟩ := writeLoop_turn full (0 + fuel) n 0 s ready.positive.ne'
  rw [Nat.min_eq_left small] at data turn file
  rw [Nat.sub_self, writeLoop_done, Nat.zero_add n, ← is] at turn
  have flags : s'.file.has fAppend = s.file.has fAppend := by
    rw [file]
    rfl
  rw [Flushes, ready.fileWrite_eq n s' turn]
  refine ⟨rfl, ⟨[t], kept, ?_⟩, ?_⟩
  · rw [List.flatMap_singleton, there, data, BitVec.add_zero]
  · rw [flags]
    split_ifs
    · rfl
    · show s'.file.offset = _
      rw [file, Nat.zero_add]

theorem FlushReady.flush_long (large : vfsMaxIounit < n) : ¬ Flushes host s n := by
  have unit : vfsMaxIounit = 100 := rfl
  have size : bufsiz = 512 := rfl
  have room := ready.room
  obtain ⟨fuel, is⟩ := Nat.exists_eq_add_of_lt ready.positive
  obtain ⟨t, s', there, data, turn, kept, mem, file⟩ := writeLoop_turn full (0 + fuel) n 0 s ready.positive.ne'
  rw [Nat.min_eq_right large.le, unit] at data turn file
  rw [Nat.zero_add 100] at turn file
  obtain ⟨rest, s'', loop, all, away⟩ := writeLoop_gap full s.file.offset (0 + fuel) (n - 100) 100 100 s' (by omega)
    (by rw [file]) le_rfl le_rfl (by omega) (by omega)
  have sends : writeLoop host n n 0 s = .ok (n, s'') := by
    have loop := turn.trans loop
    rwa [← is, Nat.add_sub_cancel' (by omega)] at loop
  rintro ⟨-, ⟨new, sent, perm⟩, -⟩
  rw [ready.fileWrite_eq n s'' sends] at sent
  have messages : t :: rest = new := by
    have same : s''.sent = s.sent ++ new := sent
    rw [all, kept, List.append_assoc, List.singleton_append] at same
    exact List.append_cancel_left same
  -- Byte 100 is sent for none of the places.
  have wanted : (s.file.offset + BitVec.ofNat 64 100, s.mem.bytes (s.file.buf + 100)) ∈
      placed s.file.offset (s.mem.bytes.bytes s.file.buf n) := by
    refine List.mem_mapIdx.mpr ⟨100, by rw [Store.length_bytes]; omega, ?_⟩
    have byte := Store.bytes_get s.mem.bytes s.file.buf n 100 (by omega)
    rw [List.getElem?_eq_getElem (by rw [Store.length_bytes]; omega)] at byte
    rw [Option.some.inj byte]
  obtain ⟨u, member, place⟩ := List.mem_flatMap.mp (perm.mem_iff.mpr wanted)
  rw [← messages] at member
  rcases List.mem_cons.mp member with rfl | later
  · obtain ⟨i, inside, is⟩ := List.mem_mapIdx.mp place
    rw [data, Store.length_bytes] at inside
    have same := congrArg Prod.fst is
    simp only [there, BitVec.add_zero, BitVec.add_right_inj] at same
    have value := congrArg BitVec.toNat same
    rw [BitVec.toNat_ofNat, BitVec.toNat_ofNat] at value
    omega
  · exact away u later _ place

theorem fileWrite_flushes_iff : Flushes host s n ↔ n ≤ vfsMaxIounit :=
  ⟨fun flushes => Nat.le_of_not_lt fun large => ready.flush_long full large flushes, ready.flush_short full⟩

end Flush

-- A stream with bytes in its buffer.
def filledStream (n : Nat) : Stdio :=
  { freshStream 4096 with file := { (freshStream 4096).file with wPos := 4096 + n } }

theorem flushes_three : Flushes fullHost (filledStream 3) 3 :=
  (fileWrite_flushes_iff (fun _ => rfl) ⟨by decide, by decide, rfl, rfl, by decide, by decide⟩).mpr (by decide)

theorem flush_leaves_gap : ¬ ∀ (host : Host) (s : Stdio) (n : Nat), host.WritesAll → FlushReady s n → Flushes host s n := by
  intro flushes
  have ready : FlushReady (filledStream 101) 101 := ⟨by decide, by decide, rfl, rfl, by decide, by decide⟩
  have full : fullHost.WritesAll := fun _ => rfl
  exact ready.flush_long full (by decide) (flushes fullHost _ _ full ready)

end Anthill
