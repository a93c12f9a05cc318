import Anthill.RdSessions

set_option autoImplicit false

namespace Anthill

open Bytes (Store Counted)

namespace RdServer

-- The server of the ramdisk in memory, and beside it the one of its files with the table of its clients.
def Step (m : Store) (fs : List RdFile) (s : RdServer Vfs × RdServer Table) (r : RdRequest)
    (s' : RdServer Vfs × RdServer Table) : Prop :=
  ∃ answer answer', handleMessage libvfs (rdDisk m) r s.1 = some (answer, s'.1) ∧
    handleMessage clientTable (archiveDisk fs) r s.2 = some (answer', s'.2)

abbrev Fine (fs : List RdFile) (s : RdServer Vfs × RdServer Table) (r : RdRequest) : Prop :=
  Fits fs s.1.clients s.2.clients r

def booted : RdServer Vfs × RdServer Table := (⟨noClients.1⟩, ⟨noClients.2⟩)

/-- What holds between the messages. -/
structure Serving (fs : List RdFile) (s : RdServer Vfs × RdServer Table) : Prop where
  clients : Tabled s.1.clients s.2.clients
  known : Known fs s.2.clients

def bootNode : Node := ⟨bootFile, [[0x62, 0x6f, 0x6f, 0x74]], by decide, rfl, by decide⟩

-- A root with one file of zeros in it.
def bootDisk : List RdFile := [⟨rootNode, [], rfl⟩, ⟨bootNode, [0, 0, 0], rfl⟩]

def bootImage : Store := archiveImage ramdisk (RdFile.entries bootDisk)

theorem bootImage_holds : Holds bootImage bootDisk where
  disk := ⟨archiveImage_archive ramdisk _, by decide⟩
  contents := by
    intro x inside
    have is : x = (ramdisk, ⟨rootNode, [], rfl⟩) ∨ x = (rootNode.next ramdisk, ⟨bootNode, [0, 0, 0], rfl⟩) := by
      simpa [bootDisk, places] using inside
    rcases is with rfl | rfl
    · rfl
    · decide +kernel

-- A message of the process whose queue is 5, with a path and a buffer away from the disk.
def asking (msg : Message) (client pair : Nat) : RdRequest where
  msg := msg
  mqId := 5
  mqOpen _ := 5
  client := client
  pair := pair
  path := 4096
  readBuf := 8192
  allocated := true
  fuel := 3

def joining : RdRequest := asking (((((⟨.tattach, 1, Field.blank⟩ : Message).set .fid 2).set .afid nofid).set .uname
  ⟨chars "vfs/7", vfs7_short⟩).set .aname ⟨chars "/", slash_short⟩) 16 32

def walking : RdRequest := asking ((((⟨.twalk, 2, Field.blank⟩ : Message).set .fid 2).set .newfid 3).set .wname
  ⟨[⟨chars "boot", by decide⟩], by decide⟩) 0 48

def reading : RdRequest := asking ((((⟨.tread, 3, Field.blank⟩ : Message).set .fid 3).set .offset 1).set .count 5) 0 0

def after (s : RdServer Vfs × RdServer Table) (r : RdRequest) : RdServer Vfs × RdServer Table :=
  ((handleMessage libvfs (rdDisk bootImage) r s.1).elim s.1 Prod.snd,
    (handleMessage clientTable (archiveDisk bootDisk) r s.2).elim s.2 Prod.snd)

theorem joining_fine : Fine bootDisk booted joining where
  client := .inr ⟨by decide, rfl, rfl⟩
  pair := .inr ⟨by decide, rfl, rfl⟩
  apart := by decide
  allocated := rfl
  enough := by decide
  text := by decide
  outside := .inl (by decide)
  walk is := absurd is (by decide)
  within is := absurd is (by decide)

theorem after_step {s : RdServer Vfs × RdServer Table} {r : RdRequest}
    (memory : (handleMessage libvfs (rdDisk bootImage) r s.1).isSome = true)
    (files : (handleMessage clientTable (archiveDisk bootDisk) r s.2).isSome = true) :
    Step bootImage bootDisk s r (after s r) := by
  obtain ⟨x, first⟩ := Option.isSome_iff_exists.mp memory
  obtain ⟨y, second⟩ := Option.isSome_iff_exists.mp files
  rw [after, first, second]
  exact ⟨x.1, y.1, first, second⟩

def joined : RdServer Vfs × RdServer Table := after booted joining

theorem joined_run : Run (Step bootImage bootDisk) (Fine bootDisk) booted joined :=
  .next _ _ _ .start joining_fine (after_step (by decide +kernel) (by decide +kernel))

theorem walking_fine : Fine bootDisk joined walking where
  client := .inl rfl
  pair := .inr ⟨by decide, rfl, rfl⟩
  apart := by decide
  allocated := rfl
  enough := by decide
  text := by decide
  outside := .inl (by decide)
  walk _ := rfl
  within is := absurd is (by decide)

section Runs

variable {m : Store} {fs : List RdFile} {s s' : RdServer Vfs × RdServer Table} {r : RdRequest}

theorem booted_serving (fs : List RdFile) : Serving fs booted := ⟨noClients_tabled, fun _ _ _ is => by cases is⟩

variable (holds : Holds m fs)

include holds

theorem Serving.alike (serving : Serving fs s) (fine : Fine fs s r) :
    Alike fs s.2.clients (handleMessage libvfs (rdDisk m) r s.1) (handleMessage clientTable (archiveDisk fs) r s.2) :=
  handleMessage_alike holds serving.clients serving.known fine

theorem Serving.step (serving : Serving fs s) (fine : Fine fs s r) (step : Step m fs s r s') :
    Serving fs s' ∧ s.2.clients.Keeps s'.2.clients := by
  obtain ⟨answer, answer', done, done'⟩ := step
  have alike := serving.alike holds fine
  rw [done, done'] at alike
  have same := Option.rel_some_some.mp alike
  exact ⟨⟨same.clients, same.known⟩, same.keeps⟩

theorem Serving.of_run (serving : Serving fs s) (run : Run (Step m fs) (Fine fs) s s') :
    Serving fs s' ∧ s.2.clients.Keeps s'.2.clients := by
  refine run.invariant (fun s' => Serving fs s' ∧ s.2.clients.Keeps s'.2.clients) ⟨serving, .refl _⟩ ?_
  rintro mid r next ⟨serving, keeps⟩ fine step
  have ⟨serving', keeps'⟩ := serving.step holds fine step
  exact ⟨serving', keeps.trans keeps'⟩

theorem Serving.refines (serving : Serving fs s) (fine : Fine fs s r) :
    (handleMessage libvfs (rdDisk m) r s.1).map Prod.fst =
      (handleMessage clientTable (archiveDisk fs) r s.2).map Prod.fst := by
  have alike := serving.alike holds fine
  cases first : handleMessage libvfs (rdDisk m) r s.1 <;>
    cases second : handleMessage clientTable (archiveDisk fs) r s.2 <;> rw [first, second] at alike
  · rfl
  · cases alike
  · cases alike
  · exact congrArg some (Option.rel_some_some.mp alike).answer

end Runs

section Files

variable {fs : List RdFile} {s s' : RdServer Table} {r : RdRequest}

/-- A whole walk binds its new fid to the first file whose name begins with the path. -/
theorem walk_binds {reply : Message} {mq : Int} (done : walk clientTable (archiveDisk fs) r s = some (some (reply, mq), s'))
    (type : reply.type = .rwalk) (whole : (reply.value .wqid).1.length = (r.msg.value .wname).1.length)
    (memory : r.pair ≠ 0) :
    s.clients.client r.mqId ≠ 0 ∧ s'.clients.client r.mqId = s.clients.client r.mqId ∧ ∃ header f,
      s'.clients.objs (s.clients.client r.mqId) (r.msg.value .newfid) = some header ∧ (header, f) ∈ places ramdisk fs ∧
        fs.find? (fun f => joinSlash ((r.msg.value .wname).1.map Subtype.val) <+: f.name.1.tail) = some f := by
  have error (ename : Counted 16 Byte) : r.error ename ≠ some (reply, mq) := by
    intro is
    rw [(Received.answer_some is).1] at type
    cases type
  have found : clientTable.get r.mqId s.clients = some (s.clients.client r.mqId) := rfl
  rw [walk, withClient, found, Option.bind_some] at done
  simp only at done
  split at done
  · exact absurd (Prod.mk.inj (Option.some.inj done)).1 (error _)
  split at done
  · exact absurd (Prod.mk.inj (Option.some.inj done)).1 (error _)
  next some_ =>
  split at done
  · exact absurd (Prod.mk.inj (Option.some.inj done)).1 (error _)
  obtain ⟨⟨wqid, header⟩, loop, done⟩ := Option.bind_eq_some_iff.mp done
  simp only at done
  split at done
  · exact absurd (Prod.mk.inj (Option.some.inj done)).1 (error _)
  next nonempty =>
  split at done
  · next every =>
    have names : (r.msg.value .wname).1 ≠ [] := by
      intro none_
      rw [none_] at every
      exact nonempty every
    obtain ⟨f, inside, first⟩ := walkLoop_found names loop (every.trans (Nat.zero_add _).symm)
    have path : walked [0x2f] (r.msg.value .wname).1 = joinSlash ((r.msg.value .wname).1.map Subtype.val) := by
      obtain ⟨name, names', is⟩ := List.exists_cons_of_ne_nil names
      rw [is]
      rfl
    obtain ⟨⟨pair, clients⟩, added, is⟩ := Option.map_eq_some_iff.mp done
    obtain ⟨-, rfl⟩ := Prod.mk.inj is
    have set_ : some (r.pair, s.clients.set (s.clients.client r.mqId) (r.msg.value .newfid) (some header)) =
        some (pair, clients) := (congrArg some (if_neg memory)).symm.trans added
    obtain ⟨-, rfl⟩ := Prod.mk.inj (Option.some.inj set_)
    refine ⟨some_, rfl, header, f, ?_, inside, path ▸ first⟩
    rw [Table.set_objs, Function.update_self, Function.update_self]
  · next part =>
    have sent := (Received.answer_some (Prod.mk.inj (Option.some.inj done)).1).1
    have short := walkLoop_length loop
    rw [sent, Message.set_value, List.length_take] at whole
    rw [List.length_nil] at short
    omega

/-- A file is read from the offset on. -/
theorem read_file {header : Nat} {f : RdFile} (type : r.msg.type = .tread) (client : s.clients.client r.mqId ≠ 0)
    (bound : s.clients.objs (s.clients.client r.mqId) (r.msg.value .fid) = some header)
    (inside : (header, f) ∈ places ramdisk fs) (file : f.type = rdtFile)
    (room : ((f.data.drop (r.msg.value .offset).toNat).take (r.msg.value .count).toNat).length ≤ vfsMaxIounit) :
    ∃ reply, handleMessage clientTable (archiveDisk fs) r s = some (some (reply, r.mqId), s) ∧ reply.type = .rread ∧
      reply.tag = r.msg.tag ∧
        (reply.value .data).1 = (f.data.drop (r.msg.value .offset).toNat).take (r.msg.value .count).toNat := by
  have found : clientTable.get r.mqId s.clients = some (s.clients.client r.mqId) := rfl
  have got : clientTable.fidGet (s.clients.client r.mqId) (r.msg.value .fid) s.clients = some header := by
    show some ((s.clients.objs _ _).getD 0) = some header
    rw [bound]
    rfl
  have nonnull : header ≠ 0 := by
    have low := places_low inside
    rw [ramdisk] at low
    exact (Nat.lt_of_lt_of_le (by decide) low).ne'
  have kind : (archiveDisk fs).kind header = rdtFile := by
    simp only [archiveDisk, fileAt_place inside, Option.map_some, Option.getD_some, file]
  have data : (archiveDisk fs).readFile r header (r.msg.value .offset) (r.msg.value .count) =
      some ((f.data.drop (r.msg.value .offset).toNat).take (r.msg.value .count).toNat) := by
    simp only [archiveDisk, fileAt_place inside, Option.map_some]
  rw [handleMessage, type]
  simp only
  rw [read, withHeader, withClient, found, Option.bind_some, if_neg client]
  simp only
  rw [got, Option.bind_some, if_neg nonnull, kind, if_pos rfl, data, Option.bind_some, filled, dif_pos room,
    Option.map_some, Option.map_some]
  let slice : Counted 32 Byte :=
    ⟨(f.data.drop (r.msg.value .offset).toNat).take (r.msg.value .count).toNat, Nat.lt_of_le_of_lt room (by decide)⟩
  have data : (((r.msg.to .rread).set .data slice).value .data).1 = slice.1 := by rw [Message.set_value]
  have fits : ((r.msg.to .rread).set .data slice).Fits := by
    rw [fits_rread rfl, data]
    exact Nat.le_trans room (by decide)
  have sent : r.answer ((r.msg.to .rread).set .data slice) = some ((r.msg.to .rread).set .data slice, r.mqId) := by
    rw [Received.answer, Message.put, if_pos fits, Option.map_some]
  exact ⟨(r.msg.to .rread).set .data slice, congrArg (fun answer => some (answer, s)) sent, rfl, rfl, data⟩

-- What a read leaves as it was.
theorem read_keeps {σ : Type} {lib : ClientLib σ} {d : Disk} {r : RdRequest} {s s' : RdServer σ} {answer : Answer}
    (done : read lib d r s = some (answer, s')) : s' = s := by
  obtain ⟨client, -, done⟩ := Option.bind_eq_some_iff.mp done
  split at done
  · exact (Prod.mk.inj (Option.some.inj done)).2.symm
  obtain ⟨header, -, done⟩ := Option.bind_eq_some_iff.mp done
  split at done
  · exact (Prod.mk.inj (Option.some.inj done)).2.symm
  · obtain ⟨answer', -, is⟩ := Option.map_eq_some_iff.mp done
    exact (Prod.mk.inj is).2.symm

end Files

def walked₁ : RdServer Vfs × RdServer Table := after joined walking

theorem reading_fine : Fine bootDisk walked₁ reading where
  client := .inl rfl
  pair := .inl rfl
  apart := .inl rfl
  allocated := rfl
  enough := by decide
  text := by decide
  outside := .inl (by decide)
  walk is := absurd is (by decide)
  within _ f inside _ := by
    rcases List.mem_cons.mp inside with is | inside
    · have other : walked₁.2.clients.obj (walked₁.2.clients.client 5) 3 ≠ ramdisk := by decide +kernel
      exact absurd (Prod.mk.inj is).1 other
    · obtain rfl := (Prod.mk.inj (List.mem_singleton.mp inside)).2
      decide

end RdServer

end Anthill
