import Anthill.FileTable

set_option autoImplicit false

namespace Anthill

open Bytes (Counted)
open Rpc (Talk Contract)

/-- What a process sees of the server: the objects of its fids, if it is a client. -/
abbrev FidView := Option (BitVec 32 → Option Nat)

namespace FidView

def Free (v : FidView) (fid : BitVec 32) : Prop := ∀ objs, v = some objs → objs fid = none

def Knows (v : FidView) (fid : BitVec 32) : Prop := ∃ objs obj, v = some objs ∧ objs fid = some obj ∧ obj ≠ 0

def set (v : FidView) (fid : BitVec 32) (obj : Option Nat) : FidView := v.map fun objs => Function.update objs fid obj

end FidView

/-- What the server relies on, and what a process is told of its fids. -/
def vfsContract : Contract Message Message FidView where
  allows v msg :=
    match msg.type with
    | .tattach => v = none ∧ msg.value .fid = 0 ∧ (msg.value .uname).1 ≠ [] ∧ (msg.value .uname).1.length < 32 ∧
        (msg.value .aname).1 ≠ []
    | .twalk => v.Free (msg.value .newfid)
    | .tclunk => msg.value .fid ≠ 0
    | .topen | .tread | .tstat | .twrite => True
    | _ => False
  effect v msg r v' :=
    match msg.type with
    | .tattach => ∀ reply, r = some reply →
        reply.type = .rattach ∧ (∃ objs, v' = some objs ∧ ∀ fid : BitVec 32, 2 ≤ fid.toNat → objs fid = none) ∨
          reply.type ≠ .rattach ∧ v' = v
    | .twalk => v' = v ∨ (∃ obj, obj ≠ 0 ∧ v' = v.set (msg.value .newfid) (some obj)) ∧
        ∀ reply, r = some reply → reply.type = .rwalk
    | .tclunk => v' = v ∨ v' = v.set (msg.value .fid) none
    | .topen => v' = v ∧ ∀ reply, r = some reply →
        (reply.type = .ropen ↔ msg.value .fid ≠ nofid ∧ v.Knows (msg.value .fid))
    | _ => v' = v

/-- A process at rest: what its table says of its fids agrees with the server. -/
structure Files.Ok (f : Files) (v : FidView) : Prop where
  attached : f.initialised = v.isSome
  room : 2 ≤ f.fidCount.toNat
  fresh : ∀ fid : BitVec 32, f.fidCount ≤ fid → v.Free fid
  opened : ∀ k, k ≠ 0 → f.isOpen k → v.Knows (f.openFiles k).fid ∧ 2 ≤ (f.openFiles k).fid.toNat ∧
    (f.openFiles k).fid < f.fidCount
  distinct : ∀ k k', f.isOpen k → f.isOpen k' → (f.openFiles k).fid = (f.openFiles k').fid → k = k'
  root : (f.openFiles 0).fid = 0 ∧ (f.initialised → f.isOpen 0)

theorem noFiles_ok : noFiles.Ok none where
  attached := rfl
  room := by decide
  fresh _ _ _ is := by cases is
  opened k _ is := absurd is (by decide +revert)
  distinct k _ is := absurd is (by decide +revert)
  root := ⟨rfl, fun is => by cases is⟩

section View

variable {v : FidView} {fid other : BitVec 32} {obj : Nat}

theorem FidView.set_free (free : v.Free fid) (other_ : fid ≠ other) (o : Option Nat) : (v.set other o).Free fid := by
  rintro objs is
  obtain ⟨objs, rfl, rfl⟩ := Option.map_eq_some_iff.mp is
  rw [Function.update_of_ne other_]
  exact free objs rfl

theorem FidView.set_knows (knows : v.Knows fid) (other_ : fid ≠ other) (o : Option Nat) : (v.set other o).Knows fid := by
  obtain ⟨objs, obj, rfl, is, some_⟩ := knows
  exact ⟨_, obj, rfl, (Function.update_of_ne other_ ..).trans is, some_⟩

theorem FidView.set_isSome (o : Option Nat) : (v.set fid o).isSome = v.isSome := Option.isSome_map ..

theorem FidView.Free.not_knows (free : v.Free fid) : ¬ v.Knows fid := by
  rintro ⟨objs, obj, is, there, -⟩
  cases (free objs is).symm.trans there

end View

section Sound

variable {f : Files} {v : FidView}

/-- What is not sent changes nothing; else there is a reply. -/
theorem sendMessage_sound {msg : Message} {post : Option Message → FidView → Prop} (allowed : vfsContract.allows v msg)
    (unsent : ¬ msg.Fits → post none v) (sent : ∀ reply v', vfsContract.effect v msg (some reply) v' → post (some reply) v') :
    (sendMessage msg).Sound vfsContract post v := by
  rw [sendMessage]
  split
  · exact ⟨allowed, sent⟩
  · next unfit => exact unsent unfit

theorem replyOf_some {type : FcallType} {reply : Option Message} {msg : Message} (is : replyOf type reply = some msg) :
    reply = some msg ∧ msg.type = type := by
  obtain ⟨rfl, same⟩ := Option.filter_eq_some_iff.mp is
  exact ⟨rfl, of_decide_eq_true same⟩

theorem replyOf_none {type : FcallType} {msg : Message} (is : replyOf type (some msg) = none) : msg.type ≠ type := by
  rw [replyOf, Option.filter_eq_none_iff] at is
  exact fun same => is msg rfl (decide_eq_true same)

theorem flag_set (flags more : BitVec 32) {flag : BitVec 32} (in_ : more &&& flag ≠ 0) :
    (flags ||| more) &&& flag != 0 := by
  refine bne_iff_ne.mpr fun zero => in_ ?_
  rw [BitVec.and_or_distrib_right] at zero
  exact (BitVec.or_eq_zero_iff.mp zero).2

theorem File.opens_isOpen (file : File) (fid flags : BitVec 32) : (file.opens fid flags).has fOpen :=
  flag_set _ _ (bne_iff_ne.mp (flag_set flags fOpen (by decide)))

section Update

variable {f' : Files} {k : Fin fopenMax} {file : File} (streams : f'.openFiles = Function.update f.openFiles k file)

include streams

theorem Files.openFiles_other {k' : Fin fopenMax} (other : k' ≠ k) :
    f'.openFiles k' = f.openFiles k' ∧ f'.isOpen k' = f.isOpen k' := by
  rw [Files.isOpen, Files.isOpen, streams, Function.update_of_ne other]
  exact ⟨rfl, rfl⟩

theorem Files.openFiles_self : f'.openFiles k = file ∧ f'.isOpen k = file.has fOpen := by
  rw [Files.isOpen, streams, Function.update_self]
  exact ⟨rfl, rfl⟩

end Update

section Ok

variable {f' : Files} {file : File}

-- Tags and errors are not seen.
theorem Files.Ok.congr {f' : Files} (ok : f.Ok v) (streams : f'.openFiles = f.openFiles) (count : f'.fidCount = f.fidCount)
    (init : f'.initialised = f.initialised) : f'.Ok v := by
  obtain ⟨openFiles, fidCount, tagCount, initialised, errno⟩ := f
  obtain ⟨openFiles', fidCount', tagCount', initialised', errno'⟩ := f'
  obtain rfl : openFiles' = openFiles := streams
  obtain rfl : fidCount' = fidCount := count
  obtain rfl : initialised' = initialised := init
  exact ⟨ok.attached, ok.room, ok.fresh, ok.opened, ok.distinct, ok.root⟩

/-- The root's stream is the first. -/
theorem Files.Ok.attach {objs : BitVec 32 → Option Nat} (ok : f.Ok none)
    (streams : f'.openFiles = Function.update f.openFiles 0 file) (fid : file.fid = 0) (isOpen : file.has fOpen)
    (count : f'.fidCount = f.fidCount) (init : f'.initialised = true)
    (free : ∀ fid : BitVec 32, 2 ≤ fid.toNat → objs fid = none) : f'.Ok (some objs) := by
  have root {k : Fin fopenMax} (is : f'.isOpen k) : k = 0 := by
    by_contra other
    rw [(Files.openFiles_other streams other).2] at is
    obtain ⟨⟨objs, -, none_, -⟩, -⟩ := ok.opened k other is
    cases none_
  obtain ⟨first, open_⟩ := Files.openFiles_self streams
  refine ⟨init, count ▸ ok.room, fun fid above objs' is => ?_, fun k other is => absurd (root is) other,
    fun k k' is is' _ => (root is).trans (root is').symm, first ▸ fid, fun _ => open_.trans isOpen⟩
  obtain rfl := Option.some.inj is
  rw [count] at above
  exact free fid (Nat.le_trans ok.room above)

/-- A fid is taken, and the server comes to know it or does not. -/
theorem Files.Ok.take {v' : FidView} (ok : f.Ok v) (few : f.fidCount.toNat + 1 < 2 ^ 32) (streams : f'.openFiles = f.openFiles)
    (count : f'.fidCount = f.fidCount + 1) (init : f'.initialised = f.initialised)
    (known : v' = v ∨ ∃ obj, v' = v.set f.fidCount (some obj)) : f'.Ok v' := by
  have next : f'.fidCount.toNat = f.fidCount.toNat + 1 := by
    have one : (1 : BitVec 32).toNat = 1 := rfl
    rw [count, BitVec.toNat_add, one, Nat.mod_eq_of_lt few]
  have isOpen (k : Fin fopenMax) : f'.isOpen k = f.isOpen k := by rw [Files.isOpen, Files.isOpen, streams]
  have room := ok.room
  have keeps {fid : BitVec 32} (other : fid ≠ f.fidCount) :
      (v.Free fid → v'.Free fid) ∧ (v.Knows fid → v'.Knows fid) := by
    rcases known with rfl | ⟨obj, rfl⟩
    · exact ⟨id, id⟩
    · exact ⟨fun free => FidView.set_free free other _, fun knows => FidView.set_knows knows other _⟩
  have attached : v'.isSome = v.isSome := by
    rcases known with rfl | ⟨obj, rfl⟩
    · rfl
    · exact FidView.set_isSome _
  refine ⟨init.trans (ok.attached.trans attached.symm), by omega, fun fid above => ?_, fun k other is => ?_,
    fun k k' is is' same => ?_, by rw [streams]; exact ok.root.1, fun is => ?_⟩
  · have far : fid ≠ f.fidCount := by
      rintro rfl
      rw [BitVec.le_def] at above
      omega
    refine (keeps far).1 (ok.fresh fid ?_)
    rw [BitVec.le_def] at above ⊢
    omega
  · obtain ⟨knows, large, small⟩ := ok.opened k other ((isOpen k).symm.trans is)
    rw [streams]
    refine ⟨(keeps fun same => ?_).2 knows, large, ?_⟩
    · rw [same] at small
      exact absurd small (BitVec.lt_irrefl _)
    · rw [BitVec.lt_def] at small ⊢
      omega
  · rw [streams] at same
    exact ok.distinct k k' ((isOpen k).symm.trans is) ((isOpen k').symm.trans is') same
  · exact (isOpen 0).trans (ok.root.2 (init.symm.trans is))

/-- A stream is opened for a fid that the server knows. -/
theorem Files.Ok.open_ {k : Fin fopenMax} (ok : f.Ok v) (streams : f'.openFiles = Function.update f.openFiles k file)
    (count : f'.fidCount = f.fidCount) (init : f'.initialised = f.initialised) (later : k ≠ 0)
    (knows : v.Knows file.fid) (large : 2 ≤ file.fid.toNat) (small : file.fid < f.fidCount)
    (new : ∀ k', f.isOpen k' → (f.openFiles k').fid ≠ file.fid) : f'.Ok v := by
  obtain ⟨self, open_⟩ := Files.openFiles_self streams
  have fresh {k' : Fin fopenMax} (other : k' ≠ k) (is : f'.isOpen k') : (f'.openFiles k').fid ≠ (f'.openFiles k).fid := by
    obtain ⟨same, same'⟩ := Files.openFiles_other streams other
    rw [same, self]
    exact new k' (same'.symm.trans is)
  have root := Files.openFiles_other streams later.symm
  refine ⟨init.trans ok.attached, count ▸ ok.room, fun fid above => ok.fresh fid (count ▸ above), fun k' nonzero is => ?_,
    fun k' k'' is is' same => ?_, root.1 ▸ ok.root.1, fun is => root.2.trans (ok.root.2 (init.symm.trans is))⟩
  · by_cases other : k' = k
    · rw [other, self, count]
      exact ⟨knows, large, small⟩
    · obtain ⟨same, same'⟩ := Files.openFiles_other streams other
      rw [same, count]
      exact ok.opened k' nonzero (same'.symm.trans is)
  · by_cases first : k' = k
    · by_cases second : k'' = k
      · exact first.trans second.symm
      · exact absurd (first ▸ same.symm) (fresh second is')
    · by_cases second : k'' = k
      · exact absurd (second ▸ same) (fresh first is)
      · obtain ⟨same₁, open₁⟩ := Files.openFiles_other streams first
        obtain ⟨same₂, open₂⟩ := Files.openFiles_other streams second
        rw [same₁, same₂] at same
        exact ok.distinct k' k'' (open₁.symm.trans is) (open₂.symm.trans is') same

/-- A stream is closed, and the server forgets its fid or does not. -/
theorem Files.Ok.close {k : Fin fopenMax} {v' : FidView} (ok : f.Ok v)
    (streams : f'.openFiles = Function.update f.openFiles k file) (closed : file.has fOpen = false)
    (count : f'.fidCount = f.fidCount) (init : f'.initialised = f.initialised) (later : k ≠ 0) (was : f.isOpen k)
    (known : v' = v ∨ v' = v.set (f.openFiles k).fid none) : f'.Ok v' := by
  obtain ⟨self, shut⟩ := Files.openFiles_self streams
  have root := Files.openFiles_other streams later.symm
  have others {k' : Fin fopenMax} (is : f'.isOpen k') :
      k' ≠ k ∧ f'.openFiles k' = f.openFiles k' ∧ f.isOpen k' := by
    have other : k' ≠ k := by
      rintro rfl
      rw [shut, closed] at is
      cases is
    obtain ⟨same, same'⟩ := Files.openFiles_other streams other
    exact ⟨other, same, same'.symm.trans is⟩
  have attached : v'.isSome = v.isSome := by
    rcases known with rfl | rfl
    · rfl
    · exact FidView.set_isSome _
  refine ⟨init.trans (ok.attached.trans attached.symm), count ▸ ok.room, fun fid above => ?_, fun k' nonzero is => ?_,
    fun k' k'' is is' same => ?_, root.1 ▸ ok.root.1, fun is => root.2.trans (ok.root.2 (init.symm.trans is))⟩
  · have free := ok.fresh fid (count ▸ above)
    rcases known with rfl | rfl
    · exact free
    · refine FidView.set_free free ?_ none
      rintro rfl
      obtain ⟨-, -, small⟩ := ok.opened k later was
      rw [count, BitVec.le_def] at above
      rw [BitVec.lt_def] at small
      omega
  · obtain ⟨other, same, was'⟩ := others is
    obtain ⟨knows, bounds⟩ := ok.opened k' nonzero was'
    rw [same, count]
    refine ⟨?_, bounds⟩
    rcases known with rfl | rfl
    · exact knows
    · exact FidView.set_knows knows (fun same => other (ok.distinct k' k was' was same)) none
  · obtain ⟨-, same₁, was₁⟩ := others is
    obtain ⟨-, same₂, was₂⟩ := others is'
    rw [same₁, same₂] at same
    exact ok.distinct k' k'' was₁ was₂ same

end Ok

theorem fileInit_sound (p : VfsProcess) (queues : Bool) (ok : f.Ok v) (new : f.initialised = false) :
    (fileInit p queues f).Sound vfsContract
      (fun x v => x.2.Ok v ∧ x.2.initialised = x.1 ∧ x.2.fidCount = f.fidCount) v := by
  have none_ : v = none := Option.isNone_iff_eq_none.mp (by rw [← Option.not_isSome, ← ok.attached, new]; rfl)
  rw [fileInit]
  split
  · refine .bind (sendMessage_sound ?_ ?_ fun reply v' effect => ?_)
    · exact ⟨none_, rfl, List.append_ne_nil_of_left_ne_nil (by decide) _, Nat.lt_of_le_of_lt p.short (by decide),
        List.cons_ne_nil _ _⟩
    · exact fun _ => ⟨ok.congr rfl rfl rfl, new, rfl⟩
    · cases is : replyOf .rattach (some reply) with
      | none =>
        rcases effect reply rfl with ⟨type, -⟩ | ⟨-, rfl⟩
        · exact absurd type (replyOf_none is)
        · exact ⟨ok.congr rfl rfl rfl, new, rfl⟩
      | some msg =>
        obtain ⟨same, type⟩ := replyOf_some is
        obtain rfl := Option.some.inj same
        obtain ⟨-, objs, rfl, free⟩ := (effect reply rfl).resolve_right fun other => other.1 type
        exact ⟨(none_ ▸ ok).attach rfl rfl (flag_set _ _ (by decide)) rfl rfl free, rfl, rfl⟩
  · exact ⟨ok, new, rfl⟩

theorem checkInit_sound (p : VfsProcess) (queues : Bool) (ok : f.Ok v) :
    (checkInit p queues f).Sound vfsContract
      (fun x v => x.2.Ok v ∧ x.2.initialised = x.1 ∧ x.2.fidCount = f.fidCount) v := by
  rw [checkInit]
  split
  · next is => exact ⟨ok, is, rfl⟩
  · next new => exact fileInit_sound p queues ok (Bool.not_eq_true _ ▸ new)

theorem fileWalk_sound (ok : f.Ok v) (few : f.fidCount.toNat + 1 < 2 ^ 32) (wname : Counted 16 (Counted 16 Byte)) :
    (fileWalk f.fidCount wname { f with fidCount := f.fidCount + 1 }).Sound vfsContract
      (fun x v => x.2.Ok v ∧ x.2.openFiles = f.openFiles ∧ x.2.fidCount = f.fidCount + 1 ∧
        x.2.initialised = f.initialised ∧ (x.1 = false → ¬ v.Knows f.fidCount)) v := by
  have free := ok.fresh f.fidCount (BitVec.le_refl _)
  rw [fileWalk]
  refine .bind (sendMessage_sound free (fun _ => ?_) fun reply v' effect => ?_)
  · exact ⟨ok.take few rfl rfl rfl (.inl rfl), rfl, rfl, rfl, fun _ => free.not_knows⟩
  · have known : v' = v ∨ ∃ obj, v' = v.set f.fidCount (some obj) :=
      effect.imp id fun walked => walked.1.imp fun _ => And.right
    cases is : replyOf .rwalk (some reply) with
    | none =>
      obtain rfl : v' = v := effect.resolve_right fun walked => replyOf_none is (walked.2 reply rfl)
      exact ⟨ok.take few rfl rfl rfl (.inl rfl), rfl, rfl, rfl, fun _ => free.not_knows⟩
    | some msg => exact ⟨ok.take few rfl rfl rfl known, rfl, rfl, rfl, fun is => by cases is⟩

theorem freeStream_none (full : freeStream f = none) (k : Fin fopenMax) : f.isOpen k := by
  have is := List.find?_eq_none.mp full k (List.mem_finRange k)
  simpa using is

theorem freeStream_some {k : Fin fopenMax} (is : freeStream f = some k) : f.isOpen k = false := by
  simpa using List.find?_some is

/-- What file_open returns for a fid: a stream that stands for it, or none because the server does not know the fid or all
streams are open. -/
def Files.Opened (f : Files) (fid : BitVec 32) (result : Option (Fin fopenMax)) (v : FidView) : Prop :=
  match result with
  | some k => k ≠ 0 ∧ f.isOpen k ∧ (f.openFiles k).fid = fid
  | none => ¬ v.Knows fid ∨ ∀ k, f.isOpen k

theorem openWalked_sound {fid : BitVec 32} (ok : f.Ok v) (ready : f.initialised) (large : 2 ≤ fid.toNat)
    (small : fid < f.fidCount) (new : ∀ k, f.isOpen k → (f.openFiles k).fid ≠ fid) (oflag : BitVec 32) :
    (openWalked fid oflag f).Sound vfsContract
      (fun x v => x.2.Ok v ∧ x.2.fidCount = f.fidCount ∧ x.2.Opened fid x.1 v) v := by
  rw [openWalked]
  refine .bind (sendMessage_sound trivial (fun unfit => absurd ?_ unfit) fun reply v' effect => ?_)
  · rw [Message.fits_iff [.fid, .mode] rfl]
    simp [bodyWire, Field.wire, Bytes.length_split, intSize, charSize]
  · obtain ⟨rfl, opens⟩ : v' = v ∧ _ := effect
    cases is : replyOf .ropen (some reply) with
    | none =>
      refine ⟨ok.congr rfl rfl rfl, rfl, .inl fun knows => replyOf_none is ((opens reply rfl).mpr ⟨?_, knows⟩)⟩
      rintro rfl
      have last : nofid.toNat = 2 ^ 32 - 1 := rfl
      rw [BitVec.lt_def] at small
      omega
    | some msg =>
      obtain ⟨same, type⟩ := replyOf_some is
      obtain rfl := Option.some.inj same
      obtain ⟨-, knows⟩ := (opens reply rfl).mp type
      simp only
      split
      · next full => exact ⟨ok.congr rfl rfl rfl, rfl, .inr (freeStream_none full)⟩
      · next k free =>
        have closed : f.isOpen k = false := freeStream_some free
        have later : k ≠ 0 := by
          rintro rfl
          cases closed.symm.trans (ok.root.2 ready)
        refine ⟨ok.open_ rfl rfl rfl later knows large small new, rfl, later, ?_, ?_⟩
        · rw [(Files.openFiles_self (f := f.tagged) rfl).2]
          exact (f.openFiles k).opens_isOpen fid _
        · rw [(Files.openFiles_self (f := f.tagged) rfl).1]
          rfl

/-- In between other processes may do what they like. -/
theorem fileOpen_sound (p : VfsProcess) (queues : Bool) (elements : Elements) (oflag : BitVec 32) (ok : f.Ok v)
    (few : f.fidCount.toNat + 1 < 2 ^ 32) : (fileOpen p queues elements oflag f).Sound vfsContract
      (fun x v => x.2.Ok v ∧ x.2.Opened f.fidCount x.1 v) v := by
  rw [fileOpen]
  refine .bind ((checkInit_sound p queues ok).imp ?_)
  rintro ⟨ready, f₁⟩ v₁ ⟨ok₁, init, count⟩
  rw [← count] at few ⊢
  have unknown := (ok₁.fresh f₁.fidCount (BitVec.le_refl _)).not_knows
  simp only
  split
  · next is =>
    cases elements with
    | none => exact ⟨ok₁.take few rfl rfl rfl (.inl rfl), .inl unknown⟩
    | some wname =>
      refine .bind ((fileWalk_sound ok₁ few wname).imp ?_)
      rintro ⟨walked, f₂⟩ v₂ ⟨ok₂, streams, next, init', lost⟩
      simp only at streams next init' lost ⊢
      cases walked with
      | false => exact ⟨ok₂, .inl (lost rfl)⟩
      | true =>
        have room := ok₁.room
        have one : f₂.fidCount.toNat = f₁.fidCount.toNat + 1 := by
          have unit : (1 : BitVec 32).toNat = 1 := rfl
          rw [next, BitVec.toNat_add, unit, Nat.mod_eq_of_lt few]
        refine (openWalked_sound ok₂ ?_ room ?_ (fun k opened => ?_) oflag).imp fun x v done => ⟨done.1, done.2.2⟩
        · rw [init', init]
          exact is
        · show f₁.fidCount.toNat < f₂.fidCount.toNat
          omega
        · rw [Files.isOpen, streams] at opened
          rw [streams]
          rintro same
          by_cases first : k = 0
          · have zero := ok₁.root.1
            rw [← first, same] at zero
            rw [zero] at room
            cases room
          · obtain ⟨-, -, small⟩ := ok₁.opened k first opened
            rw [same] at small
            exact absurd small (BitVec.lt_irrefl _)
  · exact ⟨ok₁.congr rfl rfl rfl, .inl unknown⟩

theorem fileClose_sound {k : Fin fopenMax} (ok : f.Ok v) (later : k ≠ 0) (was : f.isOpen k) :
    (fileClose k f).Sound vfsContract (fun x v => x.2.Ok v) v := by
  obtain ⟨-, large, -⟩ := ok.opened k later was
  rw [fileClose]
  refine .bind (sendMessage_sound ?_ (fun _ => ?_) fun reply v' effect => ?_)
  · intro zero
    rw [show (f.openFiles k).fid = 0 from zero] at large
    cases large
  · exact (ok.congr rfl rfl rfl).close rfl rfl rfl rfl later was (.inl rfl)
  · exact (ok.congr rfl rfl rfl).close rfl rfl rfl rfl later was effect

theorem fileGetStat_sound (ok : f.Ok v) (fid : BitVec 32) :
    (fileGetStat fid f).Sound vfsContract (fun x v => x.2.Ok v) v := by
  refine .bind (sendMessage_sound trivial (fun _ => ok.congr rfl rfl rfl) fun reply v' effect => ?_)
  obtain rfl : v' = v := effect
  simp only
  split
  · exact ok.congr rfl rfl rfl
  · exact ok.congr rfl rfl rfl

end Sound

end Anthill
