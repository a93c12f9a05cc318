import Anthill.Run
import Anthill.VfsAnswers

set_option autoImplicit false

namespace Anthill

open Bytes (Counted)

/-- A serial line: what its receiver holds, and what it has transmitted. `arrived` is all that it has received, and `taken`
has what each call of a driver's read has taken out. -/
structure Line (α : Type) where
  rx : List α
  tx : List Byte
  arrived : List α
  taken : List (List Byte)

/-- A message that the driver of a line has received, and what the line receives before each time it is looked at. It is
looked at no more than `fuel` times for something to arrive. -/
structure SerialRequest (α : Type) extends Received where
  arrive : Nat → List α
  fuel : Nat

section Line

variable {α : Type}

def Line.gets (l : Line α) (new : List α) : Line α := { l with rx := l.rx ++ new, arrived := l.arrived ++ new }

-- Until something is there, for ever.
def Line.await (arrive : Nat → List α) : Nat → Nat → Line α → Option (Nat × Line α)
  | 0, _, _ => none
  | fuel + 1, k, l =>
    let l := l.gets (arrive k)
    if l.rx.isEmpty then await arrive fuel (k + 1) l else some (k + 1, l)

-- Until something is there, or so many times.
def Line.poll (arrive : Nat → List α) : Nat → Nat → Line α → Nat × Line α
  | 0, k, l => (k, l)
  | timeout + 1, k, l =>
    let l := l.gets (arrive k)
    if l.rx.isEmpty then poll arrive timeout (k + 1) l else (k + 1, l)

-- While something is there, and `more` characters are wanted. One that is marked as bad is the last, and is dropped.
def Line.take (arrive : Nat → List α) (bad : α → Bool) (char : α → Byte) :
    Nat → Nat → List Byte → Line α → List Byte × Line α
  | 0, k, data, l => (data, l.gets (arrive k))
  | more + 1, k, data, l =>
    let l := l.gets (arrive k)
    match l.rx with
    | [] => (data, l)
    | c :: rx =>
      let l := { l with rx := rx }
      if bad c then (data, l) else take arrive bad char more (k + 1) (data ++ [char c]) l

theorem Line.take_length (arrive : Nat → List α) (bad : α → Bool) (char : α → Byte) (more k : Nat) (data : List Byte)
    (l : Line α) : (l.take arrive bad char more k data).1.length ≤ data.length + more := by
  induction more generalizing k data l with
  | zero => exact Nat.le_refl _
  | succ more ih =>
    rw [take]
    split
    · exact Nat.le_add_right _ _
    · simp only
      split
      · exact Nat.le_add_right _ _
      · refine (ih _ _ _).trans ?_
        rw [List.length_append, List.length_singleton]
        omega

/-- How a call moves a line: what it takes out stood at the front, and nothing else is lost. -/
structure Line.Took (char : α → Byte) (l l' : Line α) (data sent : List Byte) : Prop where
  arrived : ∃ new, l'.arrived = l.arrived ++ new ∧ (l.rx ++ new).map char = data ++ l'.rx.map char
  tx : l'.tx = l.tx ++ sent

theorem Line.Took.refl (char : α → Byte) (l : Line α) : l.Took char l [] [] :=
  ⟨⟨[], (List.append_nil _).symm, by rw [List.append_nil, List.nil_append]⟩, (List.append_nil _).symm⟩

theorem Line.Took.trans {char : α → Byte} {l l' l'' : Line α} {data data' sent sent' : List Byte}
    (first : l.Took char l' data sent) (second : l'.Took char l'' data' sent') :
    l.Took char l'' (data ++ data') (sent ++ sent') := by
  obtain ⟨new, arrived, stood⟩ := first.arrived
  obtain ⟨new', arrived', stood'⟩ := second.arrived
  refine ⟨⟨new ++ new', ?_, ?_⟩, ?_⟩
  · rw [arrived', arrived, List.append_assoc]
  · rw [← List.append_assoc, List.map_append, stood, List.append_assoc, ← List.map_append, stood', List.append_assoc]
  · rw [second.tx, first.tx, List.append_assoc]

theorem Line.gets_took (char : α → Byte) (l : Line α) (new : List α) : l.Took char (l.gets new) [] [] :=
  ⟨⟨new, rfl, rfl⟩, (List.append_nil _).symm⟩

theorem Line.await_took {arrive : Nat → List α} (char : α → Byte) {fuel k k' : Nat} {l l' : Line α}
    (done : l.await arrive fuel k = some (k', l')) : l.Took char l' [] [] ∧ l'.taken = l.taken := by
  induction fuel generalizing k l with
  | zero => cases done
  | succ fuel ih =>
    simp only [await] at done
    split at done
    · obtain ⟨took, taken⟩ := ih done
      exact ⟨(l.gets_took char _).trans took, taken⟩
    · obtain ⟨-, rfl⟩ := Prod.mk.inj (Option.some.inj done)
      exact ⟨l.gets_took char _, rfl⟩

theorem Line.poll_took (arrive : Nat → List α) (char : α → Byte) (timeout k : Nat) (l : Line α) :
    l.Took char (l.poll arrive timeout k).2 [] [] ∧ (l.poll arrive timeout k).2.taken = l.taken := by
  induction timeout generalizing k l with
  | zero => exact ⟨.refl char l, rfl⟩
  | succ timeout ih =>
    simp only [poll]
    split
    · obtain ⟨took, taken⟩ := ih (k + 1) (l.gets (arrive k))
      exact ⟨(l.gets_took char _).trans took, taken⟩
    · exact ⟨l.gets_took char _, rfl⟩

/-- The loop takes characters from the front, one after the other, if none is marked as bad. -/
theorem Line.take_took (arrive : Nat → List α) {bad : α → Bool} (char : α → Byte) (good : ∀ c, bad c = false)
    (more k : Nat) (data : List Byte) (l : Line α) : ∃ new,
      (l.take arrive bad char more k data).1 = data ++ new ∧
      l.Took char (l.take arrive bad char more k data).2 new [] ∧
      (l.take arrive bad char more k data).2.taken = l.taken := by
  induction more generalizing k data l with
  | zero => exact ⟨[], (List.append_nil _).symm, l.gets_took char _, rfl⟩
  | succ more ih =>
    simp only [take]
    split
    · exact ⟨[], (List.append_nil _).symm, l.gets_took char _, rfl⟩
    · next c rx front =>
      rw [if_neg (by rw [good c]; exact Bool.false_ne_true)]
      obtain ⟨new, is, took, taken⟩ := ih (k + 1) (data ++ [char c]) { l.gets (arrive k) with rx := rx }
      have one : l.Took char { l.gets (arrive k) with rx := rx } [char c] [] := by
        refine ⟨⟨arrive k, rfl, ?_⟩, (List.append_nil _).symm⟩
        rw [show l.rx ++ arrive k = c :: rx from front]
        rfl
      exact ⟨char c :: new, by rw [is, List.append_assoc]; rfl, one.trans took, taken⟩

-- What a call of read has taken out, noted.
def Line.note (l : Line α) (data : List Byte) : Line α := { l with taken := l.taken ++ [data] }

/-- A call of read is what it does until something is there, and then the loop. -/
theorem Line.read_took {arrive : Nat → List α} {bad : α → Bool} {char : α → Byte} (good : ∀ c, bad c = false)
    {l waited : Line α} (first : l.Took char waited [] [] ∧ waited.taken = l.taken) (more k : Nat) :
    let read := waited.take arrive bad char more k []
    l.Took char (read.2.note read.1) read.1 [] ∧ (read.2.note read.1).taken = l.taken ++ [read.1] ∧
      read.1.length ≤ more := by
  intro read
  obtain ⟨new, same, taking, kept⟩ := waited.take_took arrive char good more k []
  rw [List.nil_append] at same
  have both := first.1.trans taking
  refine ⟨⟨?_, both.tx⟩, ?_, (take_length ..).trans (Nat.le_of_eq (Nat.zero_add _))⟩
  · rw [show read.1 = new from same]
    exact both.arrived
  · rw [note, kept, first.2]

end Line

/-- The functions of a driver that read from its line and write to it, with what they are relied on for. `char` is the
character that is delivered for what has arrived. -/
structure Serial (α : Type) where
  char : α → Byte
  read : SerialRequest α → BitVec 32 → Line α → Option (Counted 32 Byte × Line α)
  write : SerialRequest α → List Byte → Line α → Option (BitVec 32 × Line α)
  reads : ∀ r n l data l', read r n l = some (data, l') →
    l.Took char l' data.1 [] ∧ l'.taken = l.taken ++ [data.1] ∧ data.1.length ≤ n.toNat
  writes : ∀ r data l n l', write r data l = some (n, l') →
    l.Took char l' [] data ∧ l'.taken = l.taken ∧ n = BitVec.ofNat 32 data.length

def uartChar (c : Byte) : Byte := if c = 13 then 10 else c

def uartRead (r : SerialRequest Byte) (n : BitVec 32) (l : Line Byte) : Option (Counted 32 Byte × Line Byte) :=
  (l.await r.arrive r.fuel 0).map fun (k, l) =>
    let taken := l.take r.arrive (fun _ => false) uartChar n.toNat k []
    (⟨taken.1, Nat.lt_of_le_of_lt ((l.take_length ..).trans (Nat.le_of_eq (Nat.zero_add _))) n.isLt⟩, taken.2.note taken.1)

-- The transmitter is waited for before each character.
def uartWrite (_ : SerialRequest Byte) (data : List Byte) (l : Line Byte) : Option (BitVec 32 × Line Byte) :=
  some (BitVec.ofNat 32 data.length, { l with tx := l.tx ++ data })

def uart : Serial Byte where
  char := uartChar
  read := uartRead
  write := uartWrite
  reads r n l data l' done := by
    obtain ⟨⟨k, waited⟩, awaited, is⟩ := Option.map_eq_some_iff.mp done
    obtain ⟨rfl, rfl⟩ := Prod.mk.inj is
    exact Line.read_took (fun _ => rfl) (Line.await_took uartChar awaited) n.toNat k
  writes r data l n l' done := by
    obtain ⟨rfl, rfl⟩ := Prod.mk.inj (Option.some.inj done)
    exact ⟨⟨⟨[], (List.append_nil _).symm, by rw [List.append_nil, List.nil_append]⟩, rfl⟩, rfl, rfl⟩

def drFe : BitVec 32 := 1 <<< 8

def drPe : BitVec 32 := 1 <<< 9

def drBe : BitVec 32 := 1 <<< 10

def drOe : BitVec 32 := 1 <<< 11

-- The bits of the four errors are taken together with &.
def pl011Bad (c : BitVec 32) : Bool := c &&& (drFe &&& drPe &&& drBe &&& drOe) ≠ 0

def pl011Char (c : BitVec 32) : Byte := c.setWidth 8

def pl011Timeout : Nat := 15000

def pl011Read (r : SerialRequest (BitVec 32)) (n : BitVec 32) (l : Line (BitVec 32)) :
    Option (Counted 32 Byte × Line (BitVec 32)) :=
  let polled := l.poll r.arrive pl011Timeout 0
  let taken := polled.2.take r.arrive pl011Bad pl011Char n.toNat polled.1 []
  some (⟨taken.1, Nat.lt_of_le_of_lt ((polled.2.take_length ..).trans (Nat.le_of_eq (Nat.zero_add _))) n.isLt⟩,
    taken.2.note taken.1)

-- It waits for something to arrive before it returns.
def pl011Write (r : SerialRequest (BitVec 32)) (data : List Byte) (l : Line (BitVec 32)) :
    Option (BitVec 32 × Line (BitVec 32)) :=
  let l : Line (BitVec 32) := { l with tx := l.tx ++ data }
  (l.await r.arrive r.fuel 0).map fun (_, l) => (BitVec.ofNat 32 data.length, l)

-- No error is ever seen.
theorem pl011Bad_never (c : BitVec 32) : pl011Bad c = false := by
  have none_ : drFe &&& drPe &&& drBe &&& drOe = 0 := by decide
  rw [pl011Bad, none_]
  simp

def pl011 : Serial (BitVec 32) where
  char := pl011Char
  read := pl011Read
  write := pl011Write
  reads r n l data l' done := by
    obtain ⟨data, rfl⟩ := Prod.mk.inj (Option.some.inj done)
    subst data
    exact Line.read_took pl011Bad_never (l.poll_took r.arrive pl011Char pl011Timeout 0) n.toNat _
  writes r data l n l' done := by
    obtain ⟨⟨k, waited⟩, awaited, is⟩ := Option.map_eq_some_iff.mp done
    obtain ⟨rfl, rfl⟩ := Prod.mk.inj is
    obtain ⟨took, taken⟩ := Line.await_took pl011Char awaited
    have sent : l.Took pl011Char { l with tx := l.tx ++ data } [] data :=
      ⟨⟨[], (List.append_nil _).symm, by rw [List.append_nil, List.nil_append]⟩, rfl⟩
    refine ⟨?_, taken, rfl⟩
    have both := sent.trans took
    rwa [List.append_nil, List.append_nil] at both

end Anthill
