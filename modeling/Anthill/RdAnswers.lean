import Anthill.RdRuns

set_option autoImplicit false

namespace Anthill

open Bytes (Counted)

theorem fits_rstat {msg : Message} (type : msg.type = .rstat) : msg.Fits ↔ (msg.value .stat).1.length ≤ 115 := by
  rw [Message.fits_iff [.stat] (by rw [type]; rfl)]
  simp only [bodyWire, List.flatMap_cons, List.flatMap_nil, List.append_nil, Field.wire, pstringWire_length]
  omega

theorem length_pack {n : Nat} {rs : List StatRecord} {bytes : List Byte} (packed : pack n rs = some bytes) :
    bytes.length ≤ n := by
  induction rs generalizing n bytes with
  | nil =>
    obtain rfl := Option.some.inj packed
    exact Nat.zero_le n
  | cons r rs ih =>
    rw [pack] at packed
    split_ifs at packed with none_ fault
    · obtain rfl := Option.some.inj packed
      exact Nat.zero_le n
    · obtain ⟨rest, is, rfl⟩ := Option.map_eq_some_iff.mp packed
      have later := ih is
      rw [List.length_append]
      omega

namespace RdServer

/-- The files that a walk finds, as far as it finds any. -/
def found (fs : List RdFile) : List (Counted 16 Byte) → List Byte → List RdFile
  | [], _ => []
  | name :: names, path =>
    let path := path ++ name.1 ++ if names = [] then [] else [0x2f]
    match fs.find? fun f => path <+: f.name.1.tail with
    | none => []
    | some f => f :: found fs names path

-- The file that a message is about.
def fileOf (fs : List RdFile) (s : RdServer Table) (r : RdRequest) : Option RdFile :=
  if s.clients.client r.mqId = 0 then none
  else fileAt fs (s.clients.obj (s.clients.client r.mqId) (r.msg.value .fid))

-- The entries that a read of a directory is to put.
def entriesOf (fs : List RdFile) (s : RdServer Table) (r : RdRequest) (f : RdFile) : List StatRecord :=
  if (r.msg.value .offset).toNat ≤ (r.msg.value .count).toNat then
    (((RdFile.nodes (filesBehind fs (s.clients.obj (s.clients.client r.mqId) (r.msg.value .fid)))).filter f.accepts).drop
      ((r.msg.value .offset).toNat + 1)).map Node.record
  else []

-- A walk that begins.
def Walks (s : RdServer Table) (r : RdRequest) : Prop :=
  r.msg.value .newfid ≠ nofid ∧ s.clients.client r.mqId ≠ 0 ∧ r.path ≠ 0

/-- The messages that the server goes wrong in memory with: a Tattach whose name fills the buffer without an end; a Tread
of more of a file than the buffer has room for, or of a directory with an entry that has room for its fixed part only; a
Tstat of the root, or of a file with no room for its record; and a Twalk whose path is so long that fcall_path_size returns
0. -/
def Faults (fs : List RdFile) (s : RdServer Table) (r : RdRequest) : Prop :=
  match r.msg.type with
  | .tattach => (r.msg.value .uname).1.length = 32
  | .tread => ∃ f, fileOf fs s r = some f ∧
      (f.type = rdtFile ∧ vfsMaxIounit < min (r.msg.value .count).toNat (f.data.length - (r.msg.value .offset).toNat) ∨
        f.type = rdtDir ∧ pack vfsMaxIounit (entriesOf fs s r f) = none)
  | .tstat => ∃ f, fileOf fs s r = some f ∧ (f.path = [] ∨ vfsMaxIounit < f.record.wire.length)
  | .twalk => s.Walks r ∧ shrtMax < (joinSlash ((r.msg.value .wname).1.map Subtype.val)).length - 1
  | _ => False

/-- The messages that are not answered: a Tattach from which no client is made, and a Twalk that finds more than seven
elements, which is carried out. -/
def Unanswered (fs : List RdFile) (s : RdServer Table) (r : RdRequest) : Prop :=
  let uname := (r.msg.value .uname).1
  match r.msg.type with
  | .tattach => uname.length = 0 ∨ 32 < uname.length ∨ r.client = 0 ∨ r.mqOpen uname = -1
  | .twalk => s.Walks r ∧ 7 < (found fs (r.msg.value .wname).1 [0x2f]).length
  | _ => False

/-- How a message ends. -/
structure Outcome (r : RdRequest) (faults silent : Prop) (x : Option (Answer × RdServer Table)) : Prop where
  faults : x = none ↔ faults
  silent : ∀ answer s, x = some (answer, s) → (answer = none ↔ silent)
  replies : ∀ reply mq s, x = some (some (reply, mq), s) → r.Replies reply mq

section Outcome

variable {fs : List RdFile} {s : RdServer Table} {r : RdRequest} {faults silent : Prop}

theorem Outcome.congr {faults' silent' : Prop} {x : Option (Answer × RdServer Table)} (outcome : Outcome r faults silent x)
    (same : faults' ↔ faults) (same' : ¬ faults → (silent' ↔ silent)) : Outcome r faults' silent' x where
  faults := outcome.faults.trans same.symm
  silent answer s is := by
    have fine : ¬ faults := fun bad => by
      rw [outcome.faults.mpr bad] at is
      cases is
    exact (outcome.silent answer s is).trans (same' fine).symm
  replies := outcome.replies

theorem outcome_answer {msg : Message} (s : RdServer Table) (tag : msg.tag = r.msg.tag)
    (type : msg.type = .rerror ∨ msg.type.code = r.msg.type.code + 1) :
    Outcome r False (¬ msg.Fits) (some (r.answer msg, s)) where
  faults := ⟨fun is => absurd is (Option.some_ne_none _), False.elim⟩
  silent answer s' is := by
    obtain ⟨rfl, -⟩ := Prod.mk.inj (Option.some.inj is)
    rw [Received.answer, Message.put]
    split
    · next fits => exact ⟨fun none_ => absurd none_ (Option.some_ne_none _), fun unfit => absurd fits unfit⟩
    · next unfit => exact ⟨fun _ => unfit, fun _ => rfl⟩
  replies reply mq s' is := by
    obtain ⟨rfl, rfl⟩ := Received.answer_some (Prod.mk.inj (Option.some.inj is)).1
    exact ⟨tag, rfl, type⟩

theorem outcome_fits {msg : Message} (s : RdServer Table) (tag : msg.tag = r.msg.tag)
    (type : msg.type = .rerror ∨ msg.type.code = r.msg.type.code + 1) (fits : msg.Fits) :
    Outcome r False False (some (r.answer msg, s)) :=
  (outcome_answer s tag type).congr Iff.rfl fun _ => ⟨False.elim, fun unfit => unfit fits⟩

theorem outcome_error {ename : Counted 16 Byte} (s : RdServer Table) (short : ename.1.length ≤ 115) :
    Outcome r False False (some (r.error ename, s)) := by
  refine outcome_fits s (by rfl) (.inl (by rfl)) ((fits_rerror rfl).mpr ?_)
  rw [Message.set_value]
  exact short

/-- Where a check fails the message is answered with an error. -/
theorem outcome_unless {bad : Prop} [Decidable bad] {ename : Counted 16 Byte} {x : Option (Answer × RdServer Table)}
    (short : ename.1.length ≤ 115) (next : ¬ bad → Outcome r faults silent x) :
    Outcome r (¬ bad ∧ faults) (¬ bad ∧ silent) (if bad then some (r.error ename, s) else x) := by
  split
  · next is =>
    exact (outcome_error s short).congr ⟨fun both => both.1 is, False.elim⟩
      fun _ => ⟨fun both => both.1 is, False.elim⟩
  · next is => exact (next is).congr (and_iff_right is) fun _ => and_iff_right is

theorem outcome_withClient {f : Nat → Option (Answer × RdServer Table)}
    (next : s.clients.client r.mqId ≠ 0 → Outcome r faults silent (f (s.clients.client r.mqId))) :
    Outcome r (s.clients.client r.mqId ≠ 0 ∧ faults) (s.clients.client r.mqId ≠ 0 ∧ silent)
      (withClient clientTable r s f) := by
  have found : clientTable.get r.mqId s.clients = some (s.clients.client r.mqId) := rfl
  rw [withClient, found, Option.bind_some]
  exact outcome_unless (by decide) next

theorem outcome_fault (bad : faults) : Outcome r faults silent none where
  faults := ⟨fun _ => bad, fun _ => rfl⟩
  silent _ _ is := by cases is
  replies _ _ _ is := by cases is

theorem outcome_silent (s : RdServer Table) (quiet : silent) : Outcome r False silent (some (none, s)) where
  faults := ⟨fun is => absurd is (Option.some_ne_none _), False.elim⟩
  silent _ _ is := ⟨fun _ => quiet, fun _ => (Prod.mk.inj (Option.some.inj is)).1.symm⟩
  replies _ _ _ is := by cases is

theorem outcome_filled {w : Nat} (wide : vfsMaxIounit < 2 ^ w) (data : List Byte) {f : Counted w Byte → Message}
    (tag : ∀ data, (f data).tag = r.msg.tag) (type : ∀ data, (f data).type.code = r.msg.type.code + 1)
    (fits : ∀ data : Counted w Byte, data.1.length ≤ vfsMaxIounit → (f data).Fits) :
    Outcome r (vfsMaxIounit < data.length) False
      (((filled wide data).map fun data => r.answer (f data)).map fun answer => (answer, s)) := by
  rw [filled]
  split
  · next room =>
    refine (outcome_answer s (tag _) (.inr (type _))).congr ⟨fun long => absurd room (Nat.not_le.mpr long), False.elim⟩ ?_
    exact fun _ => ⟨False.elim, fun unfit => unfit (fits _ room)⟩
  · next long => exact outcome_fault (Nat.lt_of_not_le long)

theorem fileAt_zero (fs : List RdFile) : fileAt fs 0 = none := by
  rw [fileAt, List.find?_eq_none.mpr, Option.map_none]
  intro x inside
  have low := places_low inside
  rw [ramdisk] at low
  have nonnull : x.1 ≠ 0 := by omega
  simpa using nonnull

theorem outcome_withHeader (known : Known fs s.clients) {f : Nat → Option Answer} {bad : RdFile → Prop}
    (next : ∀ file, (s.clients.obj (s.clients.client r.mqId) (r.msg.value .fid), file) ∈ places ramdisk fs →
      Outcome r (bad file) False
        ((f (s.clients.obj (s.clients.client r.mqId) (r.msg.value .fid))).map fun answer => (answer, s))) :
    Outcome r (∃ file, fileOf fs s r = some file ∧ bad file) False (withHeader clientTable r s f) := by
  have got (client : Nat) : clientTable.fidGet client (r.msg.value .fid) s.clients =
      some (s.clients.obj client (r.msg.value .fid)) := rfl
  have inner (some_ : s.clients.client r.mqId ≠ 0) : Outcome r (∃ file, fileOf fs s r = some file ∧ bad file) False
      ((clientTable.fidGet (s.clients.client r.mqId) (r.msg.value .fid) s.clients).bind fun header =>
        if header = 0 then some (r.error enotfound, s) else (f header).map fun answer => (answer, s)) := by
    rw [got, Option.bind_some, fileOf, if_neg some_]
    split
    · next none_ =>
      rw [none_, fileAt_zero]
      refine (outcome_error s (by decide)).congr ⟨fun found => ?_, False.elim⟩ fun _ => Iff.rfl
      obtain ⟨_, is, -⟩ := found
      cases is
    · next header =>
      obtain ⟨file, inside⟩ : ∃ file, (s.clients.obj (s.clients.client r.mqId) (r.msg.value .fid), file) ∈
          places ramdisk fs := by
        rw [Table.obj] at header ⊢
        cases is : s.clients.objs (s.clients.client r.mqId) (r.msg.value .fid) with
        | none =>
          rw [is] at header
          exact absurd rfl header
        | some obj => exact known _ _ _ is
      have there : fileAt fs (s.clients.obj (s.clients.client r.mqId) (r.msg.value .fid)) = some file := fileAt_place inside
      rw [there]
      refine (next file inside).congr ⟨fun found => ?_, fun bad => ⟨file, rfl, bad⟩⟩ fun _ => Iff.rfl
      obtain ⟨_, is, bad⟩ := found
      exact Option.some.inj is ▸ bad
  refine (outcome_withClient inner).congr (iff_and_self.mpr fun found none_ => ?_) fun _ => ?_
  · obtain ⟨file, is, -⟩ := found
    rw [fileOf, if_pos none_] at is
    cases is
  · exact ⟨False.elim, And.right⟩

section Walk

variable {room : Nat} {names : List (Counted 16 Byte)} {path : List Byte} {wqid : List Qid} {header : Nat}

/-- Where there is room for its path a walk goes as far as it finds files. -/
theorem walkLoop_files (fit : (walked path names).length ≤ room) : ∃ header',
    walkLoop (archiveDisk fs) r room names path wqid header =
      some (wqid ++ (found fs names path).map (fun f => ⟨rdType f.type, 0, nofid.setWidth 64⟩), header') := by
  induction names generalizing path wqid header with
  | nil => exact ⟨header, by rw [walkLoop, found, List.map_nil, List.append_nil]⟩
  | cons name names ih =>
    rw [← walked_cons] at fit
    rw [walkLoop, found]
    generalize path ++ name.1 ++ (if names = [] then [] else [0x2f]) = path' at fit ⊢
    have short : ¬ room < path'.length := by
      rw [walked, List.length_append] at fit
      omega
    rw [if_neg short]
    rcases archive_find_cases fs r path' with ⟨none_, missing⟩ | ⟨header', f, is, nonnull, inside, first⟩
    · rw [none_, Option.bind_some, if_pos rfl, missing]
      exact ⟨0, by rw [List.map_nil, List.append_nil]⟩
    · have type : (archiveDisk fs).type header' = rdType f.type := by
        simp only [archiveDisk, fileAt_place inside, Option.map_some, Option.getD_some]
      obtain ⟨header'', rest⟩ : ∃ header'', walkLoop (archiveDisk fs) r room names path'
          (wqid ++ [⟨rdType f.type, 0, nofid.setWidth 64⟩]) header' = some (_, header'') := ih fit
      rw [is, Option.bind_some, if_neg nonnull, first, type, rest]
      exact ⟨header'', by rw [List.map_cons, List.append_assoc, List.singleton_append]⟩

theorem length_found (fs : List RdFile) (names : List (Counted 16 Byte)) (path : List Byte) :
    (found fs names path).length ≤ names.length := by
  induction names generalizing path with
  | nil => exact Nat.le_refl _
  | cons name names ih =>
    rw [found]
    split
    · exact Nat.zero_le _
    · exact Nat.succ_le_succ (ih _)

theorem length_walked (names : List (Counted 16 Byte)) :
    (walked [0x2f] names).length = (joinSlash (names.map Subtype.val)).length - 1 + 1 := by
  rw [walked, List.length_append, List.length_tail, List.length_singleton, Nat.add_comm]

theorem walkLoop_long (long : shrtMax < (joinSlash (names.map Subtype.val)).length - 1) (d : Disk) :
    walkLoop d r 1 names [0x2f] wqid header = none := by
  cases names with
  | nil => exact absurd long (by decide)
  | cons name names =>
    rw [walkLoop, if_pos]
    rw [List.map_cons, length_joinSlash_cons, shrtMax] at long
    rw [List.length_append, List.length_append, List.length_singleton]
    cases names with
    | nil =>
      rw [List.map_nil, joinSlash, List.flatMap_nil, List.length_nil] at long
      omega
    | cons name' names =>
      rw [if_neg (List.cons_ne_nil name' names), List.length_singleton]
      omega

end Walk

section Handlers

variable (known : Known fs s.clients)

theorem attach_outcome (type : r.msg.type = .tattach) :
    Outcome r (Faults fs s r) (Unanswered fs s r) (attach clientTable (archiveDisk fs) r s) := by
  rw [Faults, Unanswered, type, attach, attachClient]
  simp only
  split
  · next empty =>
    refine (outcome_silent ⟨s.clients⟩ (.inl empty)).congr ⟨fun full => ?_, False.elim⟩ fun _ => Iff.rfl
    rw [empty] at full
    cases full
  split
  · next long =>
    refine (outcome_silent ⟨s.clients⟩ (.inr (.inl long))).congr ⟨fun full => ?_, False.elim⟩ fun _ => Iff.rfl
    exact absurd long (full ▸ Nat.lt_irrefl 32)
  split
  · next full => exact outcome_fault full
  next some_ long full =>
  by_cases none_ : r.client = 0 ∨ r.mqOpen (r.msg.value .uname).1 = -1
  · have failed : clientTable.create (r.mqOpen (r.msg.value .uname).1) r.client s.clients = some (0, s.clients) :=
      congrArg some (if_pos none_)
    rw [failed, Option.map_some, Option.bind_some]
    exact (outcome_silent ⟨s.clients⟩ (.inr (.inr none_))).congr (iff_of_false full id) fun _ => Iff.rfl
  · have made : clientTable.create (r.mqOpen (r.msg.value .uname).1) r.client s.clients =
        some (r.client, s.clients.insert r.client (r.mqOpen (r.msg.value .uname).1)) := congrArg some (if_neg none_)
    have spoken : ¬ ((r.msg.value .uname).1.length = 0 ∨ 32 < (r.msg.value .uname).1.length ∨ r.client = 0 ∨
        r.mqOpen (r.msg.value .uname).1 = -1) := not_or.mpr ⟨some_, not_or.mpr ⟨long, none_⟩⟩
    rw [made, Option.map_some, Option.bind_some, if_neg (not_or.mp none_).1]
    have inner (s : RdServer Table) : Outcome r False False
        (((archiveDisk fs).find r (r.msg.value .aname).1).bind fun header =>
          if header = 0 then some (r.error enotfound, s)
          else (clientTable.fidAdd r.client (r.msg.value .fid) header r.pair s.clients).map fun added =>
            (r.answer ((r.msg.to .rattach).set .qid ⟨(archiveDisk fs).type header, 0, (r.msg.value .fid).setWidth 64⟩),
              ⟨added.2⟩)) := by
      obtain ⟨header, found⟩ : ∃ header, (archiveDisk fs).find r (r.msg.value .aname).1 = some header := ⟨_, rfl⟩
      rw [found, Option.bind_some]
      split
      · exact outcome_error s (by decide)
      · exact outcome_fits _ rfl (.inr (by rw [type]; rfl)) (fits_fixed (.inl rfl))
    refine (outcome_unless (by decide) fun _ => inner _).congr (iff_of_false full And.right) fun _ => ?_
    exact iff_of_false spoken And.right

include known

theorem read_outcome (type : r.msg.type = .tread) :
    Outcome r (Faults fs s r) (Unanswered fs s r) (read clientTable (archiveDisk fs) r s) := by
  rw [Faults, Unanswered, type]
  refine outcome_withHeader known fun f inside => ?_
  have kind : (archiveDisk fs).kind (s.clients.obj (s.clients.client r.mqId) (r.msg.value .fid)) = f.type := by
    simp only [archiveDisk, fileAt_place inside, Option.map_some, Option.getD_some]
  have data : (archiveDisk fs).readFile r (s.clients.obj (s.clients.client r.mqId) (r.msg.value .fid))
      (r.msg.value .offset) (r.msg.value .count) =
        some ((f.data.drop (r.msg.value .offset).toNat).take (r.msg.value .count).toNat) := by
    simp only [archiveDisk, fileAt_place inside, Option.map_some]
  have dir : (archiveDisk fs).readDir r (s.clients.obj (s.clients.client r.mqId) (r.msg.value .fid))
      (r.msg.value .offset) (r.msg.value .count) = pack vfsMaxIounit (entriesOf fs s r f) := by
    simp only [archiveDisk, fileAt_place inside, Option.bind_some, entriesOf]
  -- What is put of up to VFS_MAX_IOUNIT bytes fits.
  have sent (bytes : List Byte) := outcome_filled (s := s) (r := r) (by decide) bytes
    (f := fun data => (r.msg.to .rread).set .data data) (fun _ => rfl) (fun _ => by rw [type]; rfl) fun data room => by
      rw [fits_rread rfl, Message.set_value]
      exact Nat.le_trans room (by decide)
  simp only [kind, data, dir, Option.bind_some]
  split
  · next file =>
    refine (sent _).congr ?_ fun _ => Iff.rfl
    rw [List.length_take, List.length_drop, file]
    exact ⟨fun bad => bad.elim And.right fun both => absurd both.1 (by decide), fun long => .inl ⟨rfl, long⟩⟩
  split
  · next file dir =>
    cases packed : pack vfsMaxIounit (entriesOf fs s r f) with
    | none => exact outcome_fault (.inr ⟨dir, rfl⟩)
    | some bytes =>
      refine (sent bytes).congr ⟨fun bad => ?_, fun long => absurd (length_pack packed) (Nat.not_le.mpr long)⟩ fun _ => Iff.rfl
      rcases bad with ⟨is, -⟩ | ⟨-, is⟩
      · exact absurd is file
      · cases is
  · next file dir =>
    refine (outcome_error s (by decide)).congr ⟨fun bad => ?_, False.elim⟩ fun _ => Iff.rfl
    exact bad.elim (fun both => file both.1) fun both => dir both.1

theorem stat_outcome (type : r.msg.type = .tstat) :
    Outcome r (Faults fs s r) (Unanswered fs s r) (stat clientTable (archiveDisk fs) r s) := by
  rw [Faults, Unanswered, type]
  refine outcome_withHeader known fun f inside => ?_
  have record : (archiveDisk fs).stat r (s.clients.obj (s.clients.client r.mqId) (r.msg.value .fid)) =
      if f.path = [] then none else pack vfsMaxIounit [f.record] := by
    simp only [archiveDisk, fileAt_place inside, Option.bind_some]
  simp only [record]
  have large := f.record.large
  have head : ¬ vfsMaxIounit < sizeofQid + sizeofLength := by decide
  split
  · next root => exact outcome_fault (.inl root)
  · next root =>
    rw [pack, if_neg head]
    split
    · next long => exact outcome_fault (.inr long)
    · next short =>
      have some_ : ¬ (f.record.wire ++ []).length = 0 := by
        rw [List.append_nil]
        have positive : 0 < sizeofQid + sizeofLength := by decide
        omega
      simp only [pack, Option.map_some, Option.bind_some, if_neg some_]
      refine (outcome_filled (s := s) (r := r) (by decide) _ (f := fun stat => (r.msg.to .rstat).set .stat stat) (fun _ => rfl)
        (fun _ => by rw [type]; rfl) fun stat room => ?_).congr ?_ fun _ => Iff.rfl
      · rw [fits_rstat rfl, Message.set_value]
        exact Nat.le_trans room (by decide)
      · rw [List.append_nil]
        exact ⟨fun bad => bad.elim (fun is => absurd is root) id, .inr⟩

omit known in
theorem walk_outcome (type : r.msg.type = .twalk) :
    Outcome r (Faults fs s r) (Unanswered fs s r) (walk clientTable (archiveDisk fs) r s) := by
  -- An answer with the qids of what is found.
  have rwalk (wqid : Counted 16 Qid) (s' : RdServer Table)
      (whole : wqid.1.length = (found fs (r.msg.value .wname).1 [0x2f]).length) :
      Outcome r False (7 < (found fs (r.msg.value .wname).1 [0x2f]).length)
        (some (r.answer ((r.msg.to .rwalk).set .wqid wqid), s')) := by
    refine (outcome_answer s' (by rfl) (.inr (by rw [type]; rfl))).congr Iff.rfl fun _ => ?_
    rw [fits_rwalk rfl, Message.set_value, whole, Nat.not_le]
  have few := length_found fs (r.msg.value .wname).1 [0x2f]
  rw [Faults, Unanswered, type, walk]
  simp only [Walks, and_assoc]
  refine outcome_unless (by decide) fun _ => outcome_withClient fun some_ => outcome_unless (by decide) fun _ => ?_
  by_cases long : shrtMax < (joinSlash ((r.msg.value .wname).1.map Subtype.val)).length - 1
  · have none_ : pathSize (r.msg.value .wname).1 + 1 = 1 := by rw [pathSize, if_pos long]
    rw [none_, walkLoop_long long, Option.bind_none]
    exact outcome_fault long
  · have room : pathSize (r.msg.value .wname).1 + 1 = (walked [0x2f] (r.msg.value .wname).1).length := by
      rw [pathSize, if_neg long, length_walked]
    obtain ⟨header, files⟩ : ∃ header, walkLoop (archiveDisk fs) r (pathSize (r.msg.value .wname).1 + 1)
        (r.msg.value .wname).1 [0x2f] [] 0 = some (_, header) := walkLoop_files (Nat.le_of_eq room.symm)
    rw [files, Option.bind_some, List.nil_append]
    simp only [List.length_map]
    split
    · next none_ =>
      refine (outcome_error s (by decide)).congr (iff_of_false long id) fun _ => ?_
      rw [none_]
      exact iff_of_false (by decide) id
    split
    · refine (rwalk _ _ ?_).congr (iff_of_false long id) fun _ => Iff.rfl
      rw [List.length_take, List.length_modify, List.length_map, Nat.min_eq_right few]
    · refine (rwalk _ _ ?_).congr (iff_of_false long id) fun _ => Iff.rfl
      rw [List.length_take, List.length_map, Nat.min_eq_right few]

/-- How each message ends. One of a type that the server does not know is sent back. -/
theorem handleMessage_outcome : Outcome r (Faults fs s r) (Unanswered fs s r)
    (handleMessage clientTable (archiveDisk fs) r s) ∨
      handleMessage clientTable (archiveDisk fs) r s = some (some (r.msg, r.mqId), s) ∧
        r.msg.type ∉ [.tattach, .tread, .tstat, .twalk] ∧ ¬ Faults fs s r ∧ ¬ Unanswered fs s r := by
  rw [handleMessage]
  cases type : r.msg.type with
  | tattach => exact .inl (attach_outcome type)
  | tread => exact .inl (read_outcome known type)
  | tstat => exact .inl (stat_outcome known type)
  | twalk => exact .inl (walk_outcome type)
  | tversion | rversion | terror | rerror | rattach | rwalk | topen | ropen | tcreate | rcreate | rread | twrite | rwrite
  | tclunk | rclunk | rstat | tmount | rmount =>
    refine .inr ⟨rfl, by decide, ?_, ?_⟩
    · rw [Faults, type]
      exact id
    · rw [Unanswered, type]
      exact id

end Handlers

end Outcome

section Runs

variable {m : Bytes.Store} {fs : List RdFile} (holds : Holds m fs) {s : RdServer Vfs × RdServer Table} {r : RdRequest}
  (run : Run (Step m fs) (Fine fs) booted s) (fine : Fine fs s r)

include holds run fine

/-- In every run each message is answered under its tag and to its queue, but for those that are not, and one of a type
that the server does not know with itself. -/
theorem rd_answers {answer : Answer} {s' : RdServer Vfs}
    (done : handleMessage libvfs (rdDisk m) r s.1 = some (answer, s')) :
    (answer = none ↔ Unanswered fs s.2 r) ∧ ∀ reply mq, answer = some (reply, mq) →
      r.Replies reply mq ∨ r.msg.type ∉ [.tattach, .tread, .tstat, .twalk] ∧ reply = r.msg ∧ mq = r.mqId := by
  have serving := ((booted_serving fs).of_run holds run).1
  have same := serving.refines holds fine
  rw [done] at same
  obtain ⟨⟨answer', s''⟩, meant, is⟩ := Option.map_eq_some_iff.mp same.symm
  obtain rfl : answer' = answer := is
  rcases handleMessage_outcome serving.known with outcome | ⟨echo, unknown, -, spoken⟩
  · exact ⟨outcome.silent answer' s'' meant, fun reply mq sent => .inl (outcome.replies reply mq s'' (sent ▸ meant))⟩
  · obtain ⟨rfl, rfl⟩ := Prod.mk.inj (Option.some.inj (meant.symm.trans echo))
    refine ⟨iff_of_false (Option.some_ne_none _) spoken, fun reply mq sent => .inr ⟨unknown, ?_⟩⟩
    obtain ⟨rfl, rfl⟩ := Prod.mk.inj (Option.some.inj sent)
    exact ⟨rfl, rfl⟩

end Runs

theorem rd_answers_walking : ∃ answer s', handleMessage libvfs (rdDisk bootImage) walking joined.1 = some (answer, s') ∧
    (answer = none ↔ Unanswered bootDisk joined.2 walking) ∧ ∀ reply mq, answer = some (reply, mq) →
      walking.Replies reply mq ∨ walking.msg.type ∉ [.tattach, .tread, .tstat, .twalk] ∧ reply = walking.msg ∧ mq = 5 :=
  ⟨_, _, rfl, rd_answers bootImage_holds joined_run walking_fine rfl⟩

end RdServer

end Anthill
