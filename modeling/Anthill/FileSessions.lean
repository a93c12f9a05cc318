import Anthill.Mqueue
import Anthill.VfsContract

set_option autoImplicit false

namespace Anthill

open Rpc (Queued Calls Linearized)
open VfsServer

/-- A process between two calls: its table, and what the last call of file_open took and returned. -/
structure Session where
  files : Files
  opened : Option (BitVec 32 × Option (Fin fopenMax))

def started : Session := ⟨noFiles, none⟩

/-- What file_read and file_write leave as it is, whatever they are answered. -/
structure Files.Keeps (f f' : Files) : Prop where
  fids : ∀ k, (f'.openFiles k).fid = (f.openFiles k).fid ∧ f'.isOpen k = f.isOpen k
  fidCount : f'.fidCount = f.fidCount
  initialised : f'.initialised = f.initialised

/-- What a process calls. Its first stream is not closed, and its fids are not used up. -/
inductive FileBegins (name : Nat → VfsProcess) (i : Nat) (a : Session) : FileTalk Session → Prop where
  | init (queues : Bool) (new : a.files.initialised = false) :
      FileBegins name i a ((fileInit (name i) queues a.files).bind fun (_, f) => .done ⟨f, none⟩)
  | open_ (queues : Bool) (elements : Elements) (oflag : BitVec 32) (few : a.files.fidCount.toNat + 1 < 2 ^ 32) :
      FileBegins name i a ((fileOpen (name i) queues elements oflag a.files).bind fun (k, f) =>
        .done ⟨f, some (a.files.fidCount, k)⟩)
  | close (k : Fin fopenMax) (later : k ≠ 0) (isOpen : a.files.isOpen k) :
      FileBegins name i a ((fileClose k a.files).bind fun (_, f) => .done ⟨f, none⟩)
  | stat (fid : BitVec 32) : FileBegins name i a ((fileGetStat fid a.files).bind fun (_, f) => .done ⟨f, none⟩)
  | io (msg : Message) (type : msg.type = .tread ∨ msg.type = .twrite) (next : Option Message → Files)
      (keeps : ∀ reply, a.files.Keeps (next reply)) :
      FileBegins name i a ((sendMessage msg).bind fun reply => .done ⟨next reply, none⟩)

/-- A process at rest: its table agrees with the server, and so does what file_open has returned. -/
structure Session.Settled (a : Session) (v : FidView) : Prop where
  ok : a.files.Ok v
  opened : ∀ fid result, a.opened = some (fid, result) → a.files.Opened fid result v

theorem started_settled : started.Settled none := ⟨noFiles_ok, fun _ _ is => by cases is⟩

section Begins

variable {f f' : Files} {v : FidView} {name : Nat → VfsProcess} {i : Nat} {a : Session} {t : FileTalk Session}

theorem Files.Ok.keeps (ok : f.Ok v) (keeps : f.Keeps f') : f'.Ok v where
  attached := keeps.initialised.trans ok.attached
  room := keeps.fidCount ▸ ok.room
  fresh fid above := ok.fresh fid (keeps.fidCount ▸ above)
  opened k later is := by
    rw [(keeps.fids k).1, keeps.fidCount]
    exact ok.opened k later ((keeps.fids k).2.symm.trans is)
  distinct k k' is is' same := by
    rw [(keeps.fids k).1, (keeps.fids k').1] at same
    exact ok.distinct k k' ((keeps.fids k).2.symm.trans is) ((keeps.fids k').2.symm.trans is') same
  root := ⟨(keeps.fids 0).1.trans ok.root.1, fun is => (keeps.fids 0).2.trans (ok.root.2 (keeps.initialised.symm.trans is))⟩

theorem Session.Settled.of_ok (ok : f.Ok v) : (⟨f, none⟩ : Session).Settled v := ⟨ok, fun _ _ is => by cases is⟩

theorem FileBegins.sound (begins : FileBegins name i a t) (settled : a.Settled v) : t.Sound vfsContract Session.Settled v := by
  have ok := settled.ok
  cases begins with
  | init queues new => exact .bind ((fileInit_sound (name i) queues ok new).imp fun x v done => .of_ok done.1)
  | open_ queues elements oflag few =>
    refine .bind ((fileOpen_sound (name i) queues elements oflag ok few).imp fun x v done => ⟨done.1, ?_⟩)
    rintro fid result is
    obtain ⟨rfl, rfl⟩ := Prod.mk.inj (Option.some.inj is)
    exact done.2
  | close k later isOpen => exact .bind ((fileClose_sound ok later isOpen).imp fun x v done => .of_ok done)
  | stat fid => exact .bind ((fileGetStat_sound ok fid).imp fun x v done => .of_ok done)
  | io msg type next keeps =>
    have kept (reply : Option Message) : (⟨next reply, none⟩ : Session).Settled v := .of_ok (ok.keeps (keeps reply))
    rcases type with type | type
    · refine .bind (sendMessage_sound (by simp only [vfsContract, type]) (fun _ => kept none) fun reply v' effect => ?_)
      simp only [vfsContract, type] at effect
      exact effect ▸ kept (some reply)
    · refine .bind (sendMessage_sound (by simp only [vfsContract, type]) (fun _ => kept none) fun reply v' effect => ?_)
      simp only [vfsContract, type] at effect
      exact effect ▸ kept (some reply)

end Begins

namespace FileSessions

/-- The server, any number of processes and the queues between them. -/
abbrev System := Queued Nat Message Message Session (VfsServer Vfs × VfsServer Table)

def system (tree : VnodeTree) : System := ⟨VfsServer.booted tree, none, [], fun _ => [], fun _ => .runs (.done started)⟩

abbrev Step (p : Placement) (name : Nat → VfsProcess) : System → Rpc.QueueAct Nat → System → Prop :=
  Queued.Step mqMaxMsg (vfsServe p) (FileBegins name)

/-- The states that the processes and the server get to, in whatever order they take their steps. -/
abbrev Reaches (p : Placement) (name : Nat → VfsProcess) (tree : VnodeTree) (q : System) : Prop :=
  Run (Step p name) (fun _ _ => True) (system tree) q

/-- In every state that is reached the processes keep to the contract, as if their messages were handled at once. -/
theorem Reaches.sound {p : Placement} {name : Nat → VfsProcess} {tree : VnodeTree} {q : System}
    (reaches : Reaches p name tree q) : ∃ c, Linearized q c ∧
      Calls.Sound vfsContract (VfsServer.Orderly p) (fun (i : Nat) s => s.2.clients.fids i) (fun _ => Session.Settled) c := by
  have start : Linearized (system tree) ⟨VfsServer.booted tree, fun _ => some (.done started)⟩ :=
    ⟨rfl, fun i => .runs _ rfl rfl rfl⟩
  obtain ⟨c, run, linear⟩ := start.run reaches
  refine ⟨c, linear, Calls.Sound.run (vfsServe_kept p) (fun i a t v settled begins => begins.sound settled) ?_ run⟩
  refine ⟨booted_orderly p tree, fun i t is => ?_⟩
  obtain rfl := Option.some.inj is
  exact started_settled

section Reaches

variable {p : Placement} {name : Nat → VfsProcess} {tree : VnodeTree} {q : System} {i : Nat}

theorem Reaches.orderly (reaches : Reaches p name tree q) : VfsServer.Orderly p q.server := by
  obtain ⟨c, linear, sound⟩ := reaches.sound
  exact linear.server ▸ sound.inv

/-- What the server has taken is allowed. -/
theorem Reaches.allowed (reaches : Reaches p name tree q) {msg : Message} (taken : q.taken = some (i, msg)) :
    vfsContract.allows (q.server.2.clients.fids i) msg := by
  obtain ⟨c, linear, sound⟩ := reaches.sound
  have first : q.sent i = msg :: Rpc.sentBy i q.inbox := by
    rw [Queued.sent, Queued.requests, taken, Option.toList_some, Rpc.sentBy_append, Rpc.sentBy_self]
    rfl
  obtain ⟨-, -, next, -, is⟩ := (linear.places i).of_sent first
  rw [← linear.server]
  exact (sound.talks i _ is).1

theorem Reaches.settled (reaches : Reaches p name tree q) {a : Session} (rest : q.process i = .runs (.done a)) :
    a.Settled (q.server.2.clients.fids i) := by
  obtain ⟨c, linear, sound⟩ := reaches.sound
  rw [← linear.server]
  exact sound.talks i _ ((linear.places i).of_runs rest).1

theorem Reaches.served (reaches : Reaches p name tree q) {msg : Message} (taken : q.taken = some (i, msg)) {r : Request}
    (same : r.msg.Same msg) (offers : Offers q.server.1 i r) :
    (handleMessage libvfs p r q.server.1).map (fun x => (x.1, x.2.tree)) =
        (handleMessage clientTable p r q.server.2).map (fun x => (x.1, x.2.tree)) ∧
      ∀ reply mq s', handleMessage libvfs p r q.server.1 = some (some (reply, mq), s') → mq = i := by
  have orderly := reaches.orderly
  have fine := orderly.fits offers (same.allows (reaches.allowed taken))
  refine ⟨orderly.serving.refines fine, fun reply mq s' done => ?_⟩
  rcases (orderly.serving.right fine done).2 reply mq rfl with own | ⟨v, passed⟩
  · exact own.queue.trans offers.mqId
  · exact offers.forward _ _ _ _ passed

/-- The vnode that a fid of a process stands for, as the server finds it in memory. -/
def Stands (p : Placement) (s : VfsServer Vfs) (i : Nat) (fid : BitVec 32) (v : VnodeId) : Prop := ∃ client,
  vfsClientGet i s.clients = some client ∧ client ≠ 0 ∧ vfsClientFidGet client fid s.clients = some (p.addr v) ∧ s.tree.Present v

theorem Reaches.stands (reaches : Reaches p name tree q) (fid : BitVec 32) :
    (q.server.2.clients.fids i).Knows fid ↔ ∃ v, Stands p q.server.1 i fid v := by
  have serving := reaches.orderly.serving
  rw [Table.fids_knows]
  constructor
  · rintro ⟨client, some_⟩
    have live := Table.client_live client
    rw [Table.obj] at some_
    cases there : q.server.2.clients.objs (q.server.2.clients.client i) fid with
    | none =>
      rw [there] at some_
      exact absurd rfl some_
    | some obj =>
      rw [there, Option.getD_some] at some_
      obtain ⟨v, present, at_⟩ := (serving.known _ fid obj there).resolve_left some_
      refine ⟨v, _, serving.clients.get i, client, ?_, serving.tree ▸ present⟩
      rw [serving.fid live fid, Table.obj, there, Option.getD_some, at_]
  · rintro ⟨v, client, found, some_, is, present⟩
    obtain ⟨rfl, live⟩ := serving.found found some_
    rw [serving.fid live fid] at is
    exact ⟨some_, Option.some.inj is ▸ p.nonnull v⟩

end Reaches

-- The process 5 opens the root, and the server has memory for it.

def name (_ : Nat) : VfsProcess := ⟨7, by decide⟩

def asking (msg : Message) (client pair stdout : Nat) : Request :=
  { attachingRoot with msg := msg, client := client, pair := pair, stdout := stdout }

theorem asking_offers {s : VfsServer Vfs} {msg : Message} {client pair stdout : Nat}
    (first : s.clients.Fresh client) (second : s.clients.Fresh pair) (third : s.clients.Fresh stdout)
    (apart : [client, pair, stdout].Pairwise fun a b => b = 0 ∨ b ≠ a) : Offers s 5 (asking msg client pair stdout) := by
  have callocs : ∀ addr, addr ∈ [client, pair, stdout] → s.clients.Callocs addr := by
    simp [Vfs.Callocs, first, second, third]
  exact ⟨rfl, rfl, (fun _ _ _ _ is => by cases is), callocs, apart, fun _ => ⟨first.1, second.1, third.1⟩⟩

def openRoot : FileTalk Session :=
  (fileOpen (name 5) true (some ⟨[], noNames_short⟩) oRdonly noFiles).bind fun (k, f) => .done ⟨f, some (2, k)⟩

def rootAttach : Message :=
  ((((noFiles.message .tattach).set .fid 0).set .afid nofid).set .uname (name 5).uname).set .aname ⟨chars "/", slash_short⟩

def rootWalk : Message := ((((⟨.twalk, 1, Field.blank⟩ : Message).set .fid 0).set .newfid 2).set .wname ⟨[], noNames_short⟩)

def rootOpen : Message := (((⟨.topen, 2, Field.blank⟩ : Message).set .fid 2).set .mode (openFlags oRdonly).2)

def attached : VfsServer Vfs × VfsServer Table := after (VfsServer.booted portTree) (asking rootAttach 16 32 48)

def walked : VfsServer Vfs × VfsServer Table := after attached (asking rootWalk 64 80 96)

def opened : VfsServer Vfs × VfsServer Table := after walked (asking rootOpen 112 128 144)

theorem rootAttach_offers : Offers (VfsServer.booted portTree).1 5 (asking rootAttach 16 32 48) :=
  asking_offers ⟨by decide, rfl, rfl⟩ ⟨by decide, rfl, rfl⟩ ⟨by decide, rfl, rfl⟩ (by decide)

theorem attached_served : vfsServe encoded 5 rootAttach (VfsServer.booted portTree)
    (some ((rootAttach.to .rattach).set .qid (portTree.node []).qid)) attached :=
  ⟨asking rootAttach 16 32 48, _, _, .refl _, rootAttach_offers, rfl, rfl, .some (.refl _)⟩

theorem walked_served : vfsServe encoded 5 rootWalk attached
    (some ((rootWalk.to .rwalk).set .wqid ⟨[], noNames_short⟩)) walked :=
  ⟨asking rootWalk 64 80 96, _, _, .refl _, asking_offers ⟨by decide, rfl, rfl⟩ ⟨by decide, rfl, rfl⟩
    ⟨by decide, rfl, rfl⟩ (by decide), rfl, rfl, .some (.refl _)⟩

theorem opened_served : vfsServe encoded 5 rootOpen walked (some (((rootOpen.to .ropen).set .qid
    (walked.1.tree.node (encoded.vnode (encoded.addr []))).qid).set .iounit (BitVec.ofNat 32 vfsMaxIounit))) opened :=
  ⟨asking rootOpen 112 128 144, _, _, .refl _, asking_offers ⟨by decide, rfl, rfl⟩ ⟨by decide, rfl, rfl⟩
    ⟨by decide, rfl, rfl⟩ (by decide), rfl, rfl, .some (.refl _)⟩

theorem openRoot_alone : ∃ a, openRoot.Alone (vfsServe encoded) 5 (VfsServer.booted portTree) a opened ∧
    a.opened = some (2, some 1) :=
  ⟨_, .ask attached_served (.ask walked_served (.ask opened_served (.done _ _))), rfl⟩

def running (s : VfsServer Vfs × VfsServer Table) (t : FileTalk Session) : System :=
  ⟨s, none, [], fun _ => [], Function.update (fun _ => .runs (.done started)) 5 (.runs t)⟩

theorem running_process (s : VfsServer Vfs × VfsServer Table) (t : FileTalk Session) : (running s t).process 5 = .runs t := by
  simp only [running, Function.update_self]

theorem begun_reaches : Reaches encoded name portTree (running (VfsServer.booted portTree) openRoot) :=
  .next _ _ _ .start trivial (.begin rfl (.open_ true (some ⟨[], noNames_short⟩) oRdonly (by decide)))

theorem attach_taken : ∃ q : System, Reaches encoded name portTree q ∧ q.taken = some (5, rootAttach) ∧
    q.server = VfsServer.booted portTree := by
  have sent := Run.next _ _ _ begun_reaches trivial (.send (running_process ..) (by decide))
  exact ⟨_, .next _ _ _ sent trivial (.take rfl rfl), rfl, rfl⟩

theorem rootOpened : ∃ (q : System) (a : Session), Reaches encoded name portTree q ∧ q.process 5 = .runs (.done a) ∧
    a.opened = some (2, some 1) := by
  obtain ⟨a, alone, is⟩ := openRoot_alone
  exact ⟨running opened (.done a), a, Queued.alone alone (by decide) begun_reaches, running_process .., is⟩

end FileSessions

end Anthill
