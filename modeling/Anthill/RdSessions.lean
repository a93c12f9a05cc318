import Anthill.RdArchive

set_option autoImplicit false

namespace Anthill

open Bytes (Counted)

/-- What a table keeps when clients are added to it, and new fids to its clients. -/
structure Table.Keeps (t t' : Table) : Prop where
  live : ∀ c, c ∈ t.live → c ∈ t'.live
  clients : ∀ mq, t.client mq ≠ 0 → t'.client mq = t.client mq
  objs : ∀ c, c ∈ t.live → ∀ fid obj, t.objs c fid = some obj → t'.objs c fid = some obj

section Keeps

variable {t t' t'' : Table}

theorem Table.Keeps.refl (t : Table) : t.Keeps t := ⟨fun _ => id, fun _ _ => rfl, fun _ _ _ _ => id⟩

theorem Table.Keeps.trans (keeps : t.Keeps t') (keeps' : t'.Keeps t'') : t.Keeps t'' where
  live c live := keeps'.live c (keeps.live c live)
  clients mq some_ := (keeps'.clients mq (keeps.clients mq some_ ▸ some_)).trans (keeps.clients mq some_)
  objs c live fid obj is := keeps'.objs c (keeps.live c live) fid obj (keeps.objs c live fid obj is)

theorem Table.Keeps.insert {c : Nat} (fresh : c ∉ t.live) (mq : Int) : t.Keeps (t.insert c mq) where
  live c' live := by
    rw [Table.live, Table.insert, List.map_append]
    exact List.mem_append_left _ live
  clients _ some_ := Table.insert_client some_
  objs c' live fid obj is := by
    have other : c' ≠ c := fun same => fresh (same ▸ live)
    rw [Table.insert_objs, Function.update_of_ne other]
    exact is

theorem Table.Keeps.set {c : Nat} {fid : BitVec 32} (missing : t.objs c fid = none) (obj : Nat) :
    t.Keeps (t.set c fid (some obj)) where
  live _ := id
  clients _ _ := rfl
  objs c' _ fid' obj' is := by
    rw [Table.set_objs]
    by_cases client : c' = c
    · subst client
      have other : fid' ≠ fid := by
        rintro rfl
        rw [missing] at is
        cases is
      rw [Function.update_self, Function.update_of_ne other]
      exact is
    · rw [Function.update_of_ne client]
      exact is

end Keeps

namespace RdServer

/-- The fids of the clients stand for files of the disk. -/
def Known (fs : List RdFile) (t : Table) : Prop := ∀ c fid obj, t.objs c fid = some obj →
  ∃ f, (obj, f) ∈ places ramdisk fs

-- The paths of a message, and the length of the longest one that is looked for.

def texts (r : RdRequest) : List (List Byte) :=
  match r.msg.type with
  | .tattach => [(r.msg.value .aname).1]
  | .twalk => (r.msg.value .wname).1.map Subtype.val
  | _ => []

def room (r : RdRequest) : Nat :=
  match r.msg.type with
  | .tattach => (r.msg.value .aname).1.length
  | .twalk => pathSize (r.msg.value .wname).1 + 1
  | _ => 0

/-- What the server can rely on: calloc returns NULL or memory that is not in use, and strdup gets memory. Paths have no
NUL in them and lie outside of the disk. The fid of a Twalk is a new one for its client, and no file is read from behind
its end. -/
structure Fits (fs : List RdFile) (h : Vfs) (t : Table) (r : RdRequest) : Prop where
  client : h.Callocs r.client
  pair : h.Callocs r.pair
  apart : r.pair = 0 ∨ r.pair ≠ r.client
  allocated : r.allocated = true
  enough : fs.length < r.fuel
  text : ∀ s, s ∈ texts r → 0 ∉ s
  outside : r.path + shrtSize + room r ≤ ramdisk ∨ archiveEnd ramdisk (RdFile.entries fs) + sizeofHeader ≤ r.path
  walk : r.msg.type = .twalk → t.objs (t.client r.mqId) (r.msg.value .newfid) = none
  within : r.msg.type = .tread → ∀ f, (t.obj (t.client r.mqId) (r.msg.value .fid), f) ∈ places ramdisk fs →
    f.type = rdtFile → (r.msg.value .offset).toNat ≤ f.data.length

/-- The same answer, and the lists in memory that the table stands for, which knows files only and keeps what it had. -/
structure Same (fs : List RdFile) (t : Table) (x : Answer × RdServer Vfs) (y : Answer × RdServer Table) : Prop where
  answer : x.1 = y.1
  clients : Tabled x.2.clients y.2.clients
  known : Known fs y.2.clients
  keeps : t.Keeps y.2.clients

abbrev Alike (fs : List RdFile) (t : Table) : Option (Answer × RdServer Vfs) → Option (Answer × RdServer Table) → Prop :=
  Option.Rel (Same fs t)

section Alike

variable {m : Bytes.Store} {fs : List RdFile} {h : Vfs} {t : Table} {r : RdRequest} (holds : Holds m fs)
  (tabled : Tabled h t) (known : Known fs t)

/-- What a path stands for: the first file whose name begins with it, or NULL. -/
theorem archive_find_cases (fs : List RdFile) (r : RdRequest) (path : List Byte) :
    (archiveDisk fs).find r path = some 0 ∧ fs.find? (fun f => path <+: f.name.1.tail) = none ∨
      ∃ header f, (archiveDisk fs).find r path = some header ∧ header ≠ 0 ∧ (header, f) ∈ places ramdisk fs ∧
        fs.find? (fun f => path <+: f.name.1.tail) = some f := by
  have whole : fs.find? (fun f => decide (path <+: f.name.1.tail)) =
      ((places ramdisk fs).find? fun x => decide (path <+: x.2.name.1.tail)).map Prod.snd := by
    conv_lhs => rw [← map_snd_places ramdisk fs, List.find?_map]
    rfl
  simp only [archiveDisk, whole]
  cases first : (places ramdisk fs).find? fun x => decide (path <+: x.2.name.1.tail) with
  | none => exact .inl ⟨rfl, rfl⟩
  | some x =>
    have inside := List.mem_of_find?_eq_some first
    have low := places_low inside
    rw [ramdisk] at low
    exact .inr ⟨x.1, x.2, rfl, by omega, inside, rfl⟩

theorem archive_find {path : List Byte} {header : Nat} (found : (archiveDisk fs).find r path = some header)
    (some_ : header ≠ 0) : ∃ f, (header, f) ∈ places ramdisk fs ∧
      fs.find? (fun f => path <+: f.name.1.tail) = some f := by
  rcases archive_find_cases fs r path with ⟨none_, -⟩ | ⟨header', f, is, -, inside, first⟩
  · exact absurd (Option.some.inj (found.symm.trans none_)) some_
  · obtain rfl := Option.some.inj (found.symm.trans is)
    exact ⟨f, inside, first⟩

include tabled known in
theorem Same.of (answer : Answer) : Same fs t (answer, ⟨h⟩) (answer, ⟨t⟩) := ⟨rfl, tabled, known, .refl t⟩

theorem Alike.after {t' : Table} (keeps : t.Keeps t') {x : Option (Answer × RdServer Vfs)}
    {y : Option (Answer × RdServer Table)} (alike : Alike fs t' x y) : Alike fs t x y := by
  cases alike with
  | none => exact .none
  | some same => exact .some ⟨same.answer, same.clients, same.known, keeps.trans same.keeps⟩

include tabled known in
/-- What is known of the table that a new client is added to. -/
theorem create_keeps {t' : Table} {c addr : Nat} {mq : Int} (callocs : h.Callocs addr)
    (made : clientTable.create mq addr t = some (c, t')) : t.Keeps t' ∧ Known fs t' := by
  have is : t' = (if addr = 0 ∨ mq = -1 then t else t.insert addr mq) := by
    have result := Option.some.inj made
    split_ifs at result ⊢ <;> exact (Prod.mk.inj result).2.symm
  subst is
  split
  · exact ⟨.refl t, known⟩
  · refine ⟨.insert (tabled.fresh_live callocs) mq, fun c fid obj is => known c fid obj ?_⟩
    rw [Table.insert_objs] at is
    by_cases same : c = addr
    · rw [same, Function.update_self] at is
      cases is
    · rwa [Function.update_of_ne same] at is

include tabled known in
theorem withClient_alike {f : Nat → Option (Answer × RdServer Vfs)} {g : Nat → Option (Answer × RdServer Table)}
    (next : t.client r.mqId ∈ t.live → Alike fs t (f (t.client r.mqId)) (g (t.client r.mqId))) :
    Alike fs t (withClient libvfs r ⟨h⟩ f) (withClient clientTable r ⟨t⟩ g) := by
  have found : clientTable.get r.mqId t = some (t.client r.mqId) := rfl
  rw [withClient, withClient, tabled.get, found, Option.bind_some, Option.bind_some]
  split
  · exact .some (Same.of tabled known _)
  · next some_ => exact next (Table.client_live some_)

include tabled known in
theorem withHeader_alike {f g : Nat → Option Answer} (same : ∀ file,
      (t.obj (t.client r.mqId) (r.msg.value .fid), file) ∈ places ramdisk fs →
        f (t.obj (t.client r.mqId) (r.msg.value .fid)) = g (t.obj (t.client r.mqId) (r.msg.value .fid))) :
    Alike fs t (withHeader libvfs r ⟨h⟩ f) (withHeader clientTable r ⟨t⟩ g) := by
  refine withClient_alike tabled known fun live => ?_
  have found (fid : BitVec 32) : clientTable.fidGet (t.client r.mqId) fid t = some (t.obj (t.client r.mqId) fid) := rfl
  simp only
  rw [tabled.fidGet live, found, Option.bind_some, Option.bind_some]
  split
  · exact .some (Same.of tabled known _)
  · next some_ =>
    obtain ⟨file, inside⟩ : ∃ file, (t.obj (t.client r.mqId) (r.msg.value .fid), file) ∈ places ramdisk fs := by
      rw [Table.obj] at some_ ⊢
      cases is : t.objs (t.client r.mqId) (r.msg.value .fid) with
      | none =>
        rw [is] at some_
        exact absurd rfl some_
      | some obj => exact known _ _ _ is
    rw [same file inside]
    cases g (t.obj (t.client r.mqId) (r.msg.value .fid)) with
    | none => exact .none
    | some answer => exact .some (Same.of tabled known answer)

include tabled known in
/-- A fid is bound to a file, unless there is no memory for it. -/
theorem fidAdd_alike {c : Nat} (live : c ∈ t.live) (fid : BitVec 32) {obj : Nat} {f : RdFile}
    (inside : (obj, f) ∈ places ramdisk fs) {addr : Nat} (callocs : h.Callocs addr) (missing : t.objs c fid = none)
    (done : Answer) :
    Alike fs t ((libvfs.fidAdd c fid obj addr h).map fun (_, h') => (done, ⟨h'⟩))
      ((clientTable.fidAdd c fid obj addr t).map fun (_, t') => (done, ⟨t'⟩)) := by
  obtain ⟨h', t', pair, first, second, next, added, -⟩ := tabled.fidAdd live fid obj callocs missing
  rw [first, second, Option.map_some, Option.map_some]
  by_cases none_ : addr = 0
  · have is : t' = t := by
      have unchanged : clientTable.fidAdd c fid obj addr t = some (0, t) := congrArg some (if_pos none_)
      exact (Prod.mk.inj (Option.some.inj (second.symm.trans unchanged))).2
    subst is
    exact .some ⟨rfl, next, known, .refl _⟩
  · have is : t' = t.set c fid (some obj) := by
      have set_ : clientTable.fidAdd c fid obj addr t = some (addr, t.set c fid (some obj)) := congrArg some (if_neg none_)
      exact (Prod.mk.inj (Option.some.inj (second.symm.trans set_))).2
    subst is
    refine .some ⟨rfl, next, fun c' fid' obj' is => ?_, .set missing obj⟩
    rcases Table.set_objs_cases is with old | new
    · exact known c' fid' obj' old
    · exact ⟨f, Option.some.inj new ▸ inside⟩

-- The path that a walk has looked for at its end.
def walked (path : List Byte) (names : List (Counted 16 Byte)) : List Byte :=
  path ++ (joinSlash (names.map Subtype.val)).tail

theorem walked_cons (path : List Byte) (name : Counted 16 Byte) (names : List (Counted 16 Byte)) :
    walked (path ++ name.1 ++ if names = [] then [] else [0x2f]) names = walked path (name :: names) := by
  cases names with
  | nil => simp [walked, joinSlash]
  | cons name' names => simp [walked, joinSlash]

include holds in
/-- A walk goes through the disk as through its files. -/
theorem walkLoop_alike {room : Nat} (small : room ≤ shrtMax + 1) (outside : r.path + shrtSize + room ≤ ramdisk ∨
      archiveEnd ramdisk (RdFile.entries fs) + sizeofHeader ≤ r.path) (enough : fs.length < r.fuel)
    {names : List (Counted 16 Byte)} (text : ∀ name, name ∈ names → (0 : Byte) ∉ name.1) (path : List Byte)
    (nonzero : (0 : Byte) ∉ path) (wqid : List Qid) (header : Nat) :
    walkLoop (rdDisk m) r room names path wqid header = walkLoop (archiveDisk fs) r room names path wqid header := by
  induction names generalizing path wqid header with
  | nil => rfl
  | cons name names ih =>
    obtain ⟨first, rest⟩ := List.forall_mem_cons.mp text
    have free : (0 : Byte) ∉ path ++ name.1 ++ if names = [] then [] else [0x2f] := by
      intro member
      rcases List.mem_append.mp member with member | member
      · rcases List.mem_append.mp member with member | member
        · exact nonzero member
        · exact first member
      · split_ifs at member
        · cases member
        · cases List.mem_singleton.mp member
    rw [walkLoop, walkLoop]
    generalize path ++ name.1 ++ (if names = [] then [] else [0x2f]) = path' at free ⊢
    split
    · rfl
    · next fit =>
      rw [shrtMax] at small
      rw [find_place holds r free (by omega) (by omega) enough]
      obtain ⟨next, found⟩ : ∃ next, (archiveDisk fs).find r path' = some next := ⟨_, rfl⟩
      rw [found, Option.bind_some, Option.bind_some]
      split
      · rfl
      · next some_ =>
        obtain ⟨f, inside, -⟩ := archive_find found some_
        rw [type_place holds inside]
        exact ih rest _ free _ _

/-- What a step of a walk that goes on has found. -/
theorem walkLoop_cons {d : Disk} {room : Nat} {name : Counted 16 Byte} {names : List (Counted 16 Byte)} {path : List Byte}
    {wqid wqid' : List Qid} {header header' : Nat}
    (done : walkLoop d r room (name :: names) path wqid header = some (wqid', header')) :
    wqid' = wqid ∨ ∃ next, next ≠ 0 ∧ d.find r (path ++ name.1 ++ if names = [] then [] else [0x2f]) = some next ∧
      walkLoop d r room names (path ++ name.1 ++ if names = [] then [] else [0x2f])
        (wqid ++ [⟨d.type next, 0, nofid.setWidth 64⟩]) next = some (wqid', header') := by
  rw [walkLoop] at done
  generalize path ++ name.1 ++ (if names = [] then [] else [0x2f]) = path' at done ⊢
  split at done
  · cases done
  obtain ⟨next, found, done⟩ := Option.bind_eq_some_iff.mp done
  split at done
  · exact .inl (Prod.mk.inj (Option.some.inj done)).1.symm
  · next some_ => exact .inr ⟨next, some_, found, done⟩

theorem walkLoop_length {d : Disk} {room : Nat} {names : List (Counted 16 Byte)} {path : List Byte} {wqid wqid' : List Qid}
    {header header' : Nat} (done : walkLoop d r room names path wqid header = some (wqid', header')) :
    wqid'.length ≤ wqid.length + names.length := by
  induction names generalizing path wqid header with
  | nil =>
    obtain ⟨rfl, -⟩ := Prod.mk.inj (Option.some.inj done)
    exact Nat.le_refl _
  | cons name names ih =>
    rcases walkLoop_cons done with same | ⟨next, -, -, rest⟩
    · rw [same]
      exact Nat.le_add_right _ _
    · have later := ih rest
      rw [List.length_append, List.length_singleton] at later
      rw [List.length_cons]
      omega

/-- The header at the end of a walk that has found every element. -/
theorem walkLoop_found {room : Nat} {names : List (Counted 16 Byte)} {path : List Byte} {wqid wqid' : List Qid}
    {header header' : Nat} (some_ : names ≠ [])
    (done : walkLoop (archiveDisk fs) r room names path wqid header = some (wqid', header'))
    (whole : wqid'.length = wqid.length + names.length) :
    ∃ f, (header', f) ∈ places ramdisk fs ∧ fs.find? (fun f => walked path names <+: f.name.1.tail) = some f := by
  induction names generalizing path wqid header with
  | nil => exact absurd rfl some_
  | cons name names ih =>
    rcases walkLoop_cons done with same | ⟨next, nonnull, found, rest⟩
    · rw [same, List.length_cons] at whole
      omega
    rw [← walked_cons]
    by_cases last : names = []
    · subst last
      obtain ⟨-, rfl⟩ := Prod.mk.inj (Option.some.inj rest)
      obtain ⟨f, inside, first⟩ := archive_find found nonnull
      refine ⟨f, inside, ?_⟩
      rwa [walked, List.map_nil, joinSlash, List.flatMap_nil, List.tail_nil, List.append_nil]
    · refine ih last rest ?_
      rw [whole, List.length_append, List.length_singleton, List.length_cons]
      omega

section Handlers

variable (fits : Fits fs h t r)

include holds tabled known fits

theorem attach_alike (type : r.msg.type = .tattach) :
    Alike fs t (attach libvfs (rdDisk m) r ⟨h⟩) (attach clientTable (archiveDisk fs) r ⟨t⟩) := by
  have text := fits.text
  have outside := fits.outside
  rw [texts, type] at text
  rw [room, type] at outside
  have same : (rdDisk m).find r (r.msg.value .aname).1 = (archiveDisk fs).find r (r.msg.value .aname).1 :=
    find_place holds r (text _ (List.mem_singleton_self _)) (r.msg.value .aname).2 outside fits.enough
  rw [attach, attach, attachClient, attachClient, same]
  simp only
  split
  · exact .some (Same.of tabled known _)
  split
  · exact .some (Same.of tabled known _)
  split
  · exact .none
  obtain ⟨h₁, t₁, c, first, second, next, made, kept⟩ := tabled.create (r.mqOpen (r.msg.value .uname).1) fits.client
  obtain ⟨keeps, known₁⟩ := create_keeps tabled known fits.client second
  rw [first, second, Option.map_some, Option.map_some, Option.bind_some, Option.bind_some]
  by_cases none_ : c = 0
  · simp only [none_, if_true]
    exact .some ⟨rfl, next, known₁, keeps⟩
  simp only [none_, if_false]
  obtain ⟨rfl, live, fresh⟩ := made none_
  split
  · exact .some ⟨rfl, next, known₁, keeps⟩
  obtain ⟨header, found⟩ : ∃ header, (archiveDisk fs).find r (r.msg.value .aname).1 = some header := ⟨_, rfl⟩
  rw [found, Option.bind_some, Option.bind_some]
  split
  · exact .some ⟨rfl, next, known₁, keeps⟩
  · next some_ =>
    obtain ⟨f, inside, -⟩ := archive_find found some_
    rw [type_place holds inside]
    have pair : h₁.Callocs r.pair := fits.apart.elim .inl fun other => kept r.pair other fits.pair
    exact (fidAdd_alike next known₁ live _ inside pair (by rw [fresh]) _).after keeps

theorem read_alike (type : r.msg.type = .tread) :
    Alike fs t (read libvfs (rdDisk m) r ⟨h⟩) (read clientTable (archiveDisk fs) r ⟨t⟩) := by
  refine withHeader_alike tabled known fun f inside => ?_
  obtain ⟨kind, kind'⟩ := kind_place holds inside
  simp only [kind, kind']
  split
  · next file =>
    have within := fits.within type f inside file
    have archived : (archiveDisk fs).readFile r (t.obj (t.client r.mqId) (r.msg.value .fid)) (r.msg.value .offset)
        (r.msg.value .count) = some ((f.data.drop (r.msg.value .offset).toNat).take (r.msg.value .count).toNat) := by
      simp only [archiveDisk, fileAt_place inside, Option.map_some]
    rw [readFile_place holds inside r _ within, archived]
  split
  · next dir => rw [readDir_place holds inside r dir _ _ fits.allocated fits.enough]
  · rfl

theorem stat_alike : Alike fs t (stat libvfs (rdDisk m) r ⟨h⟩) (stat clientTable (archiveDisk fs) r ⟨t⟩) := by
  refine withHeader_alike tabled known fun f inside => ?_
  simp only [stat_place holds inside r fits.allocated]

theorem walk_alike (type : r.msg.type = .twalk) :
    Alike fs t (walk libvfs (rdDisk m) r ⟨h⟩) (walk clientTable (archiveDisk fs) r ⟨t⟩) := by
  have text := fits.text
  have outside := fits.outside
  rw [texts, type] at text
  rw [room, type] at outside
  have small : pathSize (r.msg.value .wname).1 + 1 ≤ shrtMax + 1 := by
    rw [pathSize]
    split <;> omega
  have loop := walkLoop_alike holds small outside fits.enough (fun name member => text _ (List.mem_map_of_mem member)) [0x2f]
    (by decide) [] 0
  rw [walk, walk]
  simp only
  split
  · exact .some (Same.of tabled known _)
  refine withClient_alike tabled known fun live => ?_
  split
  · exact .some (Same.of tabled known _)
  rw [loop]
  cases done : walkLoop (archiveDisk fs) r (pathSize (r.msg.value .wname).1 + 1) (r.msg.value .wname).1 [0x2f] [] 0 with
  | none => exact .none
  | some found =>
    obtain ⟨wqid, header⟩ := found
    rw [Option.bind_some, Option.bind_some]
    simp only
    split
    · exact .some (Same.of tabled known _)
    next some_ =>
    split
    · next whole =>
      have names : (r.msg.value .wname).1 ≠ [] := by
        intro none_
        rw [none_] at whole
        exact some_ whole
      obtain ⟨f, inside, -⟩ := walkLoop_found names done (whole.trans (Nat.zero_add _).symm)
      exact fidAdd_alike tabled known live _ inside fits.pair (fits.walk type) _
    · exact .some (Same.of tabled known _)

/-- The server does with the ramdisk in memory what it is meant to do with its files. -/
theorem handleMessage_alike :
    Alike fs t (handleMessage libvfs (rdDisk m) r ⟨h⟩) (handleMessage clientTable (archiveDisk fs) r ⟨t⟩) := by
  rw [handleMessage, handleMessage]
  cases type : r.msg.type with
  | tattach => exact attach_alike holds tabled known fits type
  | tread => exact read_alike holds tabled known fits type
  | tstat => exact stat_alike holds tabled known fits
  | twalk => exact walk_alike holds tabled known fits type
  | tversion | rversion | terror | rerror | rattach | rwalk | topen | ropen | tcreate | rcreate | rread | twrite | rwrite
  | tclunk | rclunk | rstat | tmount | rmount => exact .some (Same.of tabled known _)

end Handlers

end Alike

end RdServer

end Anthill
