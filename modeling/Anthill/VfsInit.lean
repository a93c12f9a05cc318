import Anthill.VfsRuns

set_option autoImplicit false

namespace Anthill

def qtdir : BitVec 32 := 1 <<< 31

/-- What vfs_init meets: memory for vnodes and their names as in `drivers`, what mq_open returns for a name, and the qid of
the Rattach that a driver sends for a fid. -/
structure InitHost where
  drivers : Drivers
  mqOpen : List Byte → Int
  attach : Int → BitVec 32 → Option Qid

section Setup

variable (w : InitHost)

/-- _setup_boot, _setup_pl011 and _setup_uart: a vnode that a driver is behind. Of its fields channel_node is not set. What
is done about the vnodes when it fails is left out. -/
def setupDriver (full : VfsError) (name mqName : List Byte) (parent : VnodeId) (t : VnodeTree) :
    Except VfsError VnodeTree :=
  match vnodeAddChild w.drivers t parent with
  | none => .error full
  | some (child, t) =>
    match pstrdup w.drivers child (.of name) with
    | none => .error .nomem
    | some name =>
      if w.mqOpen mqName = -1 then .error .notfound
      else
        match w.attach (w.mqOpen mqName) t.idCount with
        | none => .error .mqerr
        | some qid => .ok { t.update child fun x => ⟨some name, qid, none, x.channelNode, 0, w.mqOpen mqName⟩ with
            idCount := t.idCount + 1 }

def setupBoot : VnodeId → VnodeTree → Except VfsError VnodeTree := setupDriver w .nomem (chars "boot") (chars "vfs/mod/rd")

def setupPl011 : VnodeId → VnodeTree → Except VfsError VnodeTree :=
  setupDriver w .notfound (chars "pl011") (chars "vfs/mod/pl011")

def setupUart : VnodeId → VnodeTree → Except VfsError VnodeTree :=
  setupDriver w .nomem (chars "uart") (chars "vfs/mod/uart")

def setupDev (root : VnodeId) (t : VnodeTree) : Except VfsError VnodeTree :=
  match vnodeAddChild w.drivers t root with
  | none => .error .nomem
  | some (dev, t) =>
    match pstrdup w.drivers dev (.of (chars "dev")) with
    | none => .error .nomem
    | some name =>
      let t := { t.update dev fun x => ⟨some name, ⟨qtdir, 0, t.idCount.setWidth 64⟩, none, x.channelNode, 0, -1⟩ with
        idCount := t.idCount + 1 }
      (setupPl011 w dev t).bind (setupUart w dev)

/-- vfs_init, from memory in which no vnode is. -/
def vfsInit (t : VnodeTree) : Except VfsError VnodeTree :=
  if w.mqOpen (chars "vfs/client") = -1 then .error .nomem
  else
    let t := { t.update [] fun x => ⟨x.name, ⟨qtdir, 0, t.idCount.setWidth 64⟩, none, x.channelNode, 0, -1⟩ with
      idCount := t.idCount + 1 }
    (setupBoot w [] t).bind (setupDev w [])

end Setup

section Find

variable {t t' : VnodeTree} {v child : VnodeId} {name : Pstring}

/-- The child that is found first stays the first that is found. -/
theorem VnodeTree.Stays.findChild (stays : t.Stays t') (present : t.Present v)
    (found : vnodeFindChild t v name = some child) : vnodeFindChild t' v name = some child := by
  obtain ⟨i, hit, rfl⟩ := Option.map_eq_some_iff.mp found
  obtain ⟨begins, member, before⟩ := List.find?_range_eq_some.mp hit
  have there {j : Nat} (small : j ≤ i) : t.Present (j :: v) := ⟨present, Nat.lt_of_le_of_lt small (List.mem_range.mp member)⟩
  have same {j : Nat} (small : j ≤ i) : (t'.node (j :: v)).begins name = (t.node (j :: v)).begins name := by
    rw [Vnode.begins, Vnode.begins, stays.name _ (there small)]
  refine Option.map_eq_some_iff.mpr ⟨i, List.find?_range_eq_some.mpr ⟨?_, ?_, fun j small => ?_⟩, rfl⟩
  · rw [same (Nat.le_refl i)]
    exact begins
  · exact List.mem_range.mpr (stays.present _ (there (Nat.le_refl i))).2
  · rw [same (Nat.le_of_lt small)]
    exact before j small

end Find

section Init

variable {w : InitHost} {t t' tree : VnodeTree} {full : VfsError} {name mqName : List Byte} {parent : VnodeId}

/-- The vnode that is added last has the name, and nothing else changes but the count of its parent. -/
structure AddsVnode (w : InitHost) (parent : VnodeId) (n : Nat) (name : List Byte) (t t' : VnodeTree) : Prop where
  before : (t.node parent).childrenNo = n
  count : (t'.node parent).childrenNo = n + 1
  same : (t'.node parent).name = (t.node parent).name
  named : (t'.node (n :: parent)).name = some (w.drivers.copy (n :: parent) (.of name))
  empty : (t'.node (n :: parent)).childrenNo = 0
  others : ∀ v, v ≠ parent → v ≠ n :: parent → t'.node v = t.node v

theorem AddsVnode.of_child {child : VnodeId} {copied : Pstring} {x : Vnode → Vnode} {n : BitVec 32}
    (made : vnodeAddChild w.drivers t parent = some (child, t')) (is : pstrdup w.drivers child (.of name) = some copied)
    (named : ∀ y, (x y).name = some copied) (empty : ∀ y, (x y).childrenNo = 0) :
    AddsVnode w parent (t.node parent).childrenNo name t { t'.update child x with idCount := n } := by
  rw [vnodeAddChild] at made
  split at made
  · obtain ⟨rfl, rfl⟩ := Prod.mk.inj (Option.some.inj made)
    rw [pstrdup] at is
    split at is
    · obtain rfl := Option.some.inj is
      have longer : parent ≠ (t.node parent).childrenNo :: parent := (List.cons_ne_self _ _).symm
      refine ⟨rfl, ?_, ?_, ?_, ?_, fun v first second => ?_⟩
      · simp only [VnodeTree.update_other _ _ _ longer, VnodeTree.update_self]
      · simp only [VnodeTree.update_other _ _ _ longer, VnodeTree.update_self]
      · simp only [VnodeTree.update_self, named]
      · simp only [VnodeTree.update_self, empty]
      · simp only [VnodeTree.update_other _ _ _ second, VnodeTree.update_other _ _ _ first]
    · cases is
  · cases made

theorem setupDriver_adds (done : setupDriver w full name mqName parent t = .ok t') :
    AddsVnode w parent (t.node parent).childrenNo name t t' := by
  rw [setupDriver] at done
  split at done
  · cases done
  next child t₁ made =>
  split at done
  · cases done
  next copied is =>
  split at done
  · cases done
  split at done
  · cases done
  next qid _ =>
  obtain rfl := Except.ok.inj done
  exact .of_child made is (fun _ => rfl) fun _ => rfl

/-- What vfs_init makes of a tree: the vnodes of the boot image and of the two serial ports. -/
structure Initial (w : InitHost) (tree : VnodeTree) : Prop where
  root : (tree.node []).childrenNo = 2
  boot : (tree.node [0]).name = some (w.drivers.copy [0] (.of (chars "boot")))
  dev : (tree.node [1]).name = some (w.drivers.copy [1] (.of (chars "dev")))
  serial : (tree.node [1]).childrenNo = 2
  pl011 : (tree.node [0, 1]).name = some (w.drivers.copy [0, 1] (.of (chars "pl011")))
  uart : (tree.node [1, 1]).name = some (w.drivers.copy [1, 1] (.of (chars "uart")))

theorem bind_ok {ε α β : Type} {x : Except ε α} {f : α → Except ε β} {b : β} (done : x.bind f = .ok b) :
    ∃ a, x = .ok a ∧ f a = .ok b := by
  cases x with
  | error e => cases done
  | ok a => exact ⟨a, rfl, done⟩

theorem setupDev_adds (done : setupDev w parent t = .ok t') : ∃ t₁ t₂,
    AddsVnode w parent (t.node parent).childrenNo (chars "dev") t t₁ ∧
    AddsVnode w ((t.node parent).childrenNo :: parent) 0 (chars "pl011") t₁ t₂ ∧
    AddsVnode w ((t.node parent).childrenNo :: parent) 1 (chars "uart") t₂ t' := by
  rw [setupDev] at done
  split at done
  · cases done
  next dev t₁ made =>
  split at done
  · cases done
  next copied is =>
  obtain ⟨t₂, pl011, uart⟩ := bind_ok done
  have first : dev = (t.node parent).childrenNo :: parent := by
    rw [vnodeAddChild] at made
    split at made
    · exact (Prod.mk.inj (Option.some.inj made)).1.symm
    · cases made
  subst first
  have added := AddsVnode.of_child made is (n := t₁.idCount + 1)
    (x := fun x => ⟨some copied, ⟨qtdir, 0, t₁.idCount.setWidth 64⟩, none, x.channelNode, 0, -1⟩) (fun _ => rfl) fun _ => rfl
  have pl011 := setupDriver_adds pl011
  rw [added.empty] at pl011
  have uart := setupDriver_adds uart
  rw [pl011.count] at uart
  exact ⟨_, t₂, added, pl011, uart⟩

theorem vfsInit_initial (init : vfsInit w t = .ok tree) : Initial w tree := by
  rw [vfsInit] at init
  split at init
  · cases init
  obtain ⟨t₁, boot, dev⟩ := bind_ok init
  have boot := setupDriver_adds boot
  obtain ⟨t₂, t₃, dev, pl011, uart⟩ := setupDev_adds dev
  rw [VnodeTree.update_self] at boot
  have boot : AddsVnode w [] 0 (chars "boot") _ t₁ := boot
  rw [boot.count] at dev pl011 uart
  have fixed (v : VnodeId) (below : v ≠ [1]) (first : v ≠ [0, 1]) (second : v ≠ [1, 1]) : tree.node v = t₂.node v :=
    (uart.others v below second).trans (pl011.others v below first)
  have dev_ : (tree.node [1]).name = (t₂.node [1]).name := uart.same.trans pl011.same
  refine ⟨?_, ?_, dev_.trans dev.named, uart.count, ?_, uart.named⟩
  · rw [fixed [] (by decide) (by decide) (by decide)]
    exact dev.count
  · rw [fixed [0] (by decide) (by decide) (by decide), dev.others [0] (by decide) (by decide)]
    exact boot.named
  · rw [uart.others [0, 1] (by decide) (by decide)]
    exact pl011.named

theorem Initial.finds (initial : Initial w tree) : vnodeFindChild tree [] (.of (chars "dev")) = some [1] ∧
    vnodeFindChild tree [1] (.of (chars "uart")) = some [1, 1] := by
  constructor
  · refine Option.map_eq_some_iff.mpr ⟨1, List.find?_range_eq_some.mpr ⟨?_, ?_, fun j small => ?_⟩, rfl⟩
    · rw [Vnode.begins, initial.dev]
      rfl
    · rw [initial.root]
      decide
    · obtain rfl := Nat.lt_one_iff.mp small
      rw [Vnode.begins, initial.boot]
      rfl
  · refine Option.map_eq_some_iff.mpr ⟨1, List.find?_range_eq_some.mpr ⟨?_, ?_, fun j small => ?_⟩, rfl⟩
    · rw [Vnode.begins, initial.uart]
      rfl
    · rw [initial.serial]
      decide
    · obtain rfl := Nat.lt_one_iff.mp small
      rw [Vnode.begins, initial.pl011]
      rfl

end Init

namespace VfsServer

variable {p : Placement} {r : Request}

/-- The Tattach of a process whose queue can be opened, with memory for its client. -/
structure NewClient (r : Request) : Prop where
  type : r.msg.type = .tattach
  fid : r.msg.value .fid = 0
  uname : (r.msg.value .uname).1 ≠ [] ∧ (r.msg.value .uname).1.length < 32
  aname : (r.msg.value .aname).1 ≠ []
  opened : r.mqOpen (r.msg.value .uname).1 ≠ -1
  memory : r.client ≠ 0 ∧ r.pair ≠ 0 ∧ r.stdout ≠ 0

-- The table with a new client, its root and its standard output.
def withNew (p : Placement) (r : Request) (uart : Nat) (t : Table) : Table :=
  ((t.insert r.client (r.mqOpen (r.msg.value .uname).1)).set r.client 0 (some (p.addr []))).set r.client 1 (some uart)

theorem withNew_live (p : Placement) (r : Request) (uart : Nat) (t : Table) : r.client ∈ (withNew p r uart t).live := by
  show r.client ∈ (t.insert r.client (r.mqOpen (r.msg.value .uname).1)).live
  rw [Table.live, Table.insert, List.map_append]
  exact List.mem_append_right _ (List.mem_singleton_self _)

theorem NewClient.attach (new : NewClient r) (s : VfsServer Table) : attach clientTable p r s =
    (vnodeFindChild s.tree [] (.of (chars "dev"))).map fun dev =>
      (r.answer ((r.msg.to .rattach).set .qid (s.tree.node []).qid),
        ⟨withNew p r (((vnodeFindChild s.tree dev (.of (chars "uart"))).map p.addr).getD 0) s.clients, s.tree⟩) := by
  obtain ⟨named, short⟩ := new.uname
  obtain ⟨client, pair, stdout⟩ := new.memory
  have zero : (0 : BitVec 32) ≠ nofid := by decide
  simp only [VfsServer.attach, attachClient, clientTable, new.fid, new.opened, new.aname, List.length_eq_zero_iff, named,
    Nat.not_lt_of_ge (Nat.le_of_lt short), Nat.ne_of_lt short, client, pair, stdout, zero, if_false, or_self,
    Option.bind_some, if_true, Option.map_eq_bind, Function.comp_def]
  rfl

section Runs

variable {tree : VnodeTree} {s : VfsServer Vfs × VfsServer Table}

/-- In every run no vnode is taken away. -/
theorem stays_of_run (run : Run (Step p) Fine (booted tree) s) : tree.Stays s.2.tree := by
  refine (run.invariant (fun s => Serving p s ∧ tree.Stays s.2.tree) ⟨booted_serving p tree, .refl tree⟩ ?_).2
  rintro s r s' ⟨serving, stays⟩ fine step
  obtain ⟨serving', moves⟩ := serving.step fine step
  exact ⟨serving', stays.trans moves.stays⟩

-- Drivers that answer, and memory for all vnodes.
def answering : InitHost := ⟨firstOnly, fun _ => 4, fun _ _ => some ⟨0, 0, 0⟩⟩

def portTree : VnodeTree := (vfsInit answering ⟨fun _ => ⟨none, default, none, none, 0, -1⟩, 0⟩).toOption.getD (bootTree 0)

def attachingRoot : Request := { attaching 5 16 32 48 with msg := (attaching 5 16 32 48).msg.set .fid 0 }

end Runs

end VfsServer

end Anthill
