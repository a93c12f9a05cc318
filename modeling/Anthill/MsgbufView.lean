import Anthill.MsgbufSlots
import Anthill.PageOwnership
import Anthill.Task

set_option autoImplicit false

namespace Anthill

open Radix

/-- The user tables of the tasks that are there. -/
structure SysTables (s : Sys) (pos : Pos) : Prop where
  wf : KernelWf s.kernel
  layout : UserLayout s.kernel pos
  roots : ∀ t, s.Live t → pos (s.table t) = some []

theorem SysLayout.tables {s : Sys} {pos : Pos} (system : SysLayout s pos) : SysTables s pos :=
  ⟨system.wf, system.layout.toUserLayout, system.roots⟩

/-- From `k` to `k'` pages have been taken and mapped, and whatever was mapped still is where it was. -/
structure Extends (k k' : Kernel) (pos pos' : Pos) : Prop where
  wf : KernelWf k'
  layout : UserLayout k' pos'
  keepsPos : ∀ p q, pos p = some q → pos' p = some q
  used : ∀ p, InUse k p → InUse k' p
  walks : ∀ t path c, pos t = some [] → path.length ≤ 4 → node nav k.mem t path = some c →
    node nav k'.mem t path = some c

theorem Extends.refl {k : Kernel} {pos : Pos} (wf : KernelWf k) (layout : UserLayout k pos) : Extends k k pos pos :=
  ⟨wf, layout, fun _ _ => id, fun _ => id, fun _ _ _ _ _ => id⟩

theorem Extends.trans {k k' k'' : Kernel} {pos pos' pos'' : Pos} (first : Extends k k' pos pos')
    (second : Extends k' k'' pos' pos'') : Extends k k'' pos pos'' where
  wf := second.wf
  layout := second.layout
  keepsPos p q position := second.keepsPos p q (first.keepsPos p q position)
  used p used := second.used p (first.used p used)
  walks t path c root short found :=
    second.walks t path c (first.keepsPos t [] root) short (first.walks t path c root short found)

theorem Allocated.extends {k k' : Kernel} {va : Word} {pos : Pos} (allocated : Allocated k k' va)
    (layout : UserLayout k pos) : Extends k k' pos pos where
  wf := allocated.wf
  layout := layout.allocated allocated
  keepsPos _ _ := id
  used p used := (allocated.keeps p used).1
  walks t path c root short found := by
    refine layout.typed.node_kept t c (fun p q i a position there => ?_) root path short found
    rw [(allocated.keeps p (layout.inUse p q position)).2]
    exact there

theorem Mapped.extends {k k' : Kernel} {pos pos' : Pos} {a : Word} {i : Idx} {t v e : Word}
    (mapped : Mapped k k' pos pos' a i t v e) (layout : UserLayout k pos) : Extends k k' pos pos' where
  wf := mapped.wf
  layout := mapped.layout
  keepsPos := mapped.keepsPos
  used := mapped.grew.keepsUse
  walks u path c root short found := by
    obtain ⟨_, _, _, _, was, _⟩ := mapped.hole a i rfl
    refine layout.typed.node_kept u c (fun p q j b position there => ?_) root path short found
    rw [mapped.entry_other layout p q j position ?_]
    · exact there
    · by_contra both
      push Not at both
      obtain ⟨rfl, rfl⟩ := both
      rw [nav_of_invalid _ was] at there
      cases there

theorem SysTables.extend {s : Sys} {k : Kernel} {pos pos' : Pos} (tables : SysTables s pos)
    (extends_ : Extends s.kernel k pos pos') : SysTables (s.setKernel k) pos' :=
  ⟨extends_.wf, extends_.layout, fun t live => extends_.keepsPos _ _ (tables.roots t live)⟩

-- What a table translates an address to.
def Sees (k : Kernel) (t v p : Word) : Prop := node nav k.mem t (mmuGetTableIdx v) = some p

theorem Extends.sees {k k' : Kernel} {pos pos' : Pos} (extends_ : Extends k k' pos pos') {t v p : Word}
    (root : pos t = some []) (sees : Sees k t v p) : Sees k' t v p :=
  extends_.walks t _ p root (by simp [mmuGetTableIdx]) sees

theorem Sees.page {k : Kernel} {t v p : Word} (sees : Sees k t v p) : IsPage p ∧ p ≠ 0 := by
  have walk : (node nav k.mem t (upperIdx v)).bind (fun level3 => nav (k.mem level3 (leafIdx v))) = some p :=
    (node_concat nav k.mem t (upperIdx v) (leafIdx v)).symm.trans sees
  obtain ⟨level3, _, leaf⟩ := Option.bind_eq_some_iff.mp walk
  obtain ⟨_, rfl⟩ := (nav_some _ _).mp leaf
  exact ⟨isPage_getVaddr _, getVaddr_ne_zero _⟩

section Kaddr

variable {k : Kernel} {pos : Pos} (layout : UserLayout k pos) {t : Word} (root : pos t = some [])

include layout root

theorem Sees.kaddr {v p : Word} (sees : Sees k t v p) : memUserGetKaddr k.mem t v = p := by
  rw [memUserGetKaddr_eq k pos layout t root v, show node nav k.mem t (mmuGetTableIdx v) = some p from sees,
    Option.getD_some]

theorem sees_of_kaddr (v p : Word) (there : memUserGetKaddr k.mem t v = p) (mapped : p ≠ 0) : Sees k t v p := by
  rw [memUserGetKaddr_eq k pos layout t root v] at there
  rw [Sees]
  cases found : node nav k.mem t (mmuGetTableIdx v) with
  | none =>
    rw [found] at there
    exact absurd there.symm mapped
  | some q => rw [← there, found, Option.getD_some]

/-- A map of a page that the kernel can address. -/
theorem memUserMapPage_sees (wf : KernelWf k) (v p : Word) (page : IsPage p) (perm : MemPerm) (attr : MemAttr)
    (k' : Kernel) (done : memUserMapPage k t v (virtToPhys p) perm attr = .ok (.ok, k')) :
    ∃ pos', Extends k k' pos pos' ∧ Sees k' t v p := by
  obtain ⟨pattr, pos', a, i, known, mapped⟩ := memUserMapPage_ok k pos t wf layout root v _ perm attr k' done
  refine ⟨pos', mapped.extends layout, ?_⟩
  rw [Sees, mapped.node_here (userLeaf_valid _ _), userLeaf_vaddr p _ page (userAttr_low perm attr pattr known)]

end Kaddr

-- The pages of a range, each with the frame that it is mapped to.
def Frames (k : Kernel) (t addr : Word) (i count : Nat) (frame : Nat → Word) : Prop :=
  ∀ j, j < count → Sees k t (pageAt addr (i + j)) (frame j)

/-- The loop of msgbuf_connect maps the frame of the sender's first page at every page of the range. -/
theorem connectLoop_frames (sendTable sendAddr recvTable recvBuf p : Word) (k k' : Kernel) (pos : Pos)
    (wf : KernelWf k) (layout : UserLayout k pos) (rootS : pos sendTable = some [])
    (rootR : pos recvTable = some []) (first : Sees k sendTable sendAddr p) (i count : Nat)
    (done : connectLoop sendTable sendAddr recvTable recvBuf k i count = .ok (.ok, k')) :
    ∃ pos', Extends k k' pos pos' ∧ Frames k' recvTable recvBuf i count fun _ => p := by
  induction count generalizing k pos i with
  | zero =>
    obtain ⟨_, rfl⟩ := Prod.mk.inj (Except.ok.inj done)
    exact ⟨pos, .refl wf layout, fun j none => absurd none (Nat.not_lt_zero j)⟩
  | succ count ih =>
    unfold connectLoop at done
    simp only [first.kaddr layout rootS] at done
    split at done
    · cases done
    next k₁ mapped =>
      obtain ⟨pos₁, step, here⟩ := memUserMapPage_sees layout rootR wf _ p first.page.1 .rw .norm k₁ mapped
      have rootR₁ := step.keepsPos _ _ rootR
      obtain ⟨pos₂, rest, frames⟩ := ih k₁ pos₁ step.wf step.layout (step.keepsPos _ _ rootS) rootR₁
        (step.sees rootS first) (i + 1) done
      refine ⟨pos₂, step.trans rest, fun j inside => ?_⟩
      cases j with
      | zero => exact rest.sees rootR₁ here
      | succ j =>
        have there := frames j (Nat.lt_of_succ_lt_succ inside)
        rwa [Nat.add_right_comm] at there
    next failed _ => exact absurd (Prod.mk.inj (Except.ok.inj done)).1 failed

-- A page that cannot be allocated or mapped ends the loop of _buffer_alloc with a NULL.
theorem bufferStep_failed (k k' : Kernel) (t v addr : Word)
    (failed : bufferStep k t v = .error (.ok (⟨addr, .ok⟩, k'))) : addr = 0 := by
  unfold bufferStep at failed
  split at failed
  · split at failed <;> cases failed
    rfl
  · cases failed
    rfl

theorem bufferStep_ok {k k' : Kernel} {pos : Pos} {t v : Word} (wf : KernelWf k) (layout : UserLayout k pos)
    (root : pos t = some []) (done : bufferStep k t v = .ok k') :
    ∃ va pos', Free k va ∧ Extends k k' pos pos' ∧ InUse k' va ∧ Sees k' t v va := by
  unfold bufferStep at done
  rcases memKernelAllocPage_rw k wf with oom | ⟨va, k₁, taken, allocated⟩
  · rw [oom] at done
    cases done
  simp only [taken] at done
  split at done
  · cases done
  next k₂ mapped =>
    obtain rfl := Except.ok.inj done
    have took := allocated.extends layout
    obtain ⟨pos', step, sees⟩ :=
      memUserMapPage_sees took.layout root allocated.wf _ va allocated.isPage .rw .norm k₂ mapped
    exact ⟨va, pos', allocated.wasFree, took.trans step, step.used va allocated.inUse, sees⟩
  · cases done

/-- Pages of a range with frames that were not in use before, each for itself. -/
structure NewFrames (k k' : Kernel) (t addr : Word) (i count : Nat) (frame : Nat → Word) : Prop where
  sees : Frames k' t addr i count frame
  fresh : ∀ j, j < count → ¬ InUse k (frame j)
  used : ∀ j, j < count → InUse k' (frame j)
  distinct : ∀ j j', j < count → j' < count → frame j = frame j' → j = j'

/-- The loop of _buffer_alloc maps every page of the range to a frame of its own, unless it gives up. -/
theorem bufferLoop_frames (t vaddr addr : Word) (k k' : Kernel) (pos : Pos) (wf : KernelWf k)
    (layout : UserLayout k pos) (root : pos t = some []) (i count : Nat) (given : addr ≠ 0)
    (done : bufferLoop t vaddr k i count = .ok (⟨addr, .ok⟩, k')) :
    addr = vaddr ∧ ∃ pos' frame, Extends k k' pos pos' ∧ NewFrames k k' t vaddr i count frame := by
  induction count generalizing k pos i with
  | zero =>
    obtain ⟨same, rfl⟩ := Prod.mk.inj (Except.ok.inj done)
    have none (j : Nat) : ¬ j < 0 := Nat.not_lt_zero j
    exact ⟨(MemRAddr.mk.inj same).1.symm, pos, fun _ => 0, .refl wf layout, fun j inside => absurd inside (none j),
      fun j inside => absurd inside (none j), fun j inside => absurd inside (none j),
      fun j _ inside => absurd inside (none j)⟩
  | succ count ih =>
    unfold bufferLoop at done
    cases stepped : bufferStep k t (pageAt vaddr i) with
    | error early =>
      simp only [stepped] at done
      rw [done] at stepped
      exact absurd (bufferStep_failed k k' t _ addr stepped) given
    | ok k₁ =>
      simp only [stepped] at done
      obtain ⟨va, pos₁, free, step, taken, here⟩ := bufferStep_ok wf layout root stepped
      have root₁ := step.keepsPos _ _ root
      obtain ⟨same, pos₂, frame, rest, frames⟩ := ih k₁ pos₁ step.wf step.layout root₁ (i + 1) done
      have other (j : Nat) (inside : j < count) : va ≠ frame j := fun same =>
        frames.fresh j inside (same ▸ taken)
      refine ⟨same, pos₂, fun j => if j = 0 then va else frame (j - 1), step.trans rest,
        fun j inside => ?_, fun j inside => ?_, fun j inside => ?_, fun j j' inside inside' equal => ?_⟩
      · cases j with
        | zero => exact rest.sees root₁ here
        | succ j =>
          have there := frames.sees j (Nat.lt_of_succ_lt_succ inside)
          rwa [Nat.add_right_comm] at there
      · cases j with
        | zero => exact fun used => not_free_of_marked k va used.1 free
        | succ j => exact fun used => frames.fresh j (Nat.lt_of_succ_lt_succ inside) (step.used _ used)
      · cases j with
        | zero => exact rest.used va taken
        | succ j => exact frames.used j (Nat.lt_of_succ_lt_succ inside)
      · cases j with
        | zero =>
          cases j' with
          | zero => rfl
          | succ j' => exact absurd equal (other j' (Nat.lt_of_succ_lt_succ inside'))
        | succ j =>
          cases j' with
          | zero => exact absurd equal.symm (other j (Nat.lt_of_succ_lt_succ inside))
          | succ j' =>
            exact congrArg Nat.succ (frames.distinct j j' (Nat.lt_of_succ_lt_succ inside)
              (Nat.lt_of_succ_lt_succ inside') equal)

-- Taking a page, or not.
theorem memKernelAllocPage_extends {k : Kernel} {pos : Pos} (wf : KernelWf k) (layout : UserLayout k pos) :
    Extends k (memKernelAllocPage k .rw).2 pos pos := by
  rcases memKernelAllocPage_rw k wf with oom | ⟨va, k', taken, allocated⟩
  · rw [oom]
    exact .refl wf layout
  · rw [taken]
    exact allocated.extends layout

section Alloc

variable {stale : Stale} {name : List CChar} {pos : Pos} {result : Except KernErr Nat} {k k' : Kernel}
  {reg reg' : Registry} (wf : KernelWf k) (layout : UserLayout k pos)

include wf layout

theorem growNodes_extends (fuel : Nat) (id : Option Nat)
    (done : growNodes stale name fuel k reg id = .ok (result, k', reg')) : Extends k k' pos pos := by
  induction fuel generalizing k reg id with
  | zero =>
    cases id with
    | none => cases done
    | some id =>
      unfold growNodes at done
      split_ifs at done
      cases done
      exact .refl wf layout
  | succ fuel ih =>
    cases id with
    | some id =>
      unfold growNodes at done
      split_ifs at done
      cases done
      exact .refl wf layout
    | none =>
      have took := memKernelAllocPage_extends wf layout
      unfold growNodes at done
      split_ifs at done
      split at done
      next va k₁ taken =>
        rw [taken] at took
        simp only [] at done
        split at done
        · cases done
          exact took
        · exact took.trans (ih took.wf took.layout _ done)
      next va err k₁ _ taken =>
        rw [taken] at took
        cases done
        exact took

theorem findSlot_extends (done : findSlot stale name k reg = .ok (result, k', reg')) : Extends k k' pos pos := by
  unfold findSlot at done
  split at done
  · cases done
    exact .refl wf layout
  · exact growNodes_extends wf layout managed _ done

/-- _msgbuf_alloc takes pages and maps none, whatever they hold. -/
theorem msgbufAlloc_extends (done : msgbufAlloc stale name k reg = .ok (result, k', reg')) :
    Extends k k' pos pos := by
  have took := memKernelAllocPage_extends wf layout
  unfold msgbufAlloc at done
  simp only [] at done
  by_cases empty : reg.nodes = []
  · rw [if_pos empty] at done
    rcases memKernelAllocPage_rw k wf with oom | ⟨va, k₁, taken, -⟩
    · rw [oom] at done
      cases done
      exact .refl wf layout
    · rw [taken] at took done
      simp only [] at done
      split at done
      · cases done
      next found =>
        cases done
        exact took.trans (findSlot_extends took.wf took.layout found)
      next found =>
        have grown := took.trans (findSlot_extends took.wf took.layout found)
        split_ifs at done <;> cases done <;> exact grown
  · rw [if_neg empty] at done
    split at done
    · cases done
    next found =>
      cases done
      exact findSlot_extends wf layout found
    next found =>
      have grown := findSlot_extends wf layout found
      split_ifs at done <;> cases done <;> exact grown

end Alloc

theorem msgbufGet_inside (reg : Registry) (id : Int) (n : Nat) (found : msgbufGet reg id = .ok (some n)) :
    n = id.toNat ∧ n < reg.nodes.length * nodeBufCnt := by
  unfold msgbufGet at found
  cases there : reg.nodeOf id with
  | error halt => simp only [there] at found; cases found
  | ok node =>
    cases node with
    | none => simp only [there] at found; cases found
    | some node =>
      simp only [there] at found
      split_ifs at found
      · cases found
      obtain rfl := Option.some.inj (Except.ok.inj found)
      refine ⟨rfl, (Nat.div_lt_iff_lt_mul (by decide)).mp ?_⟩
      unfold Registry.nodeOf at there
      by_cases listed : reg.nodes = []
      · rw [if_pos listed] at there
        cases there
      rw [if_neg listed] at there
      cases page : (if id < 0 then none else reg.nodes[id.toNat / nodeBufCnt]?) with
      | none =>
        simp only [page] at there
        split_ifs at there
        cases there
      | some node' =>
        split_ifs at page
        exact (List.getElem?_eq_some_iff.mp page).1

/-- How msgbuf_create gets to its success, with or without a buffer. -/
theorem msgbufCreate_made {stale : Stale} {s s' : MsgSys} {name : List CChar} {size : Word} {sendBuf : Bool}
    {n : Nat} {buf : Option Word} (done : msgbufCreate stale s name size sendBuf = .ok ((⟨n, .ok⟩, buf), s')) :
    ∃ (k k' : Kernel) (reg : Registry) (addr size' : Word), n < reg.nodes.length * nodeBufCnt ∧
      msgbufAlloc stale name s.sys.kernel s.reg = .ok (.ok n, k, reg) ∧
      ((sendBuf = false ∧ buf = none ∧ k' = k) ∨ (buf = some addr ∧ size' = size ∧
        bufferAlloc (s.sys.setKernel k) size = .ok (⟨addr, .ok⟩, k'))) ∧
      s' = ⟨s.sys.setKernel k', reg.setBuf n fun msgbuf =>
        { msgbuf.claim s.sys.current with addr := addr, size := size' }⟩ := by
  have refused (err : KernErr) (s₁ : MsgSys)
      (same : Except.ok (ε := Halt) (((⟨-1, err⟩ : MsgbufRId), (none : Option Word)), s₁) = .ok ((⟨n, .ok⟩, buf), s')) :
      False := by
    have ids := (MsgbufRId.mk.inj (Prod.mk.inj (Prod.mk.inj (Except.ok.inj same)).1).1).1
    omega
  unfold msgbufCreate at done
  split_ifs at done with badName badSize
  · exact (refused _ _ done).elim
  · exact (refused _ _ done).elim
  all_goals
    rcases alloc : msgbufAlloc stale name s.sys.kernel s.reg with halt | ⟨err | id, k, reg⟩ <;>
      simp only [alloc] at done
    · cases done
    · exact (refused _ _ done).elim
    rcases there : msgbufGet reg id with halt | _ | m <;> simp only [there] at done
    · cases done
    · cases done
    obtain ⟨rfl, inside⟩ := msgbufGet_inside reg id m there
  · cases alloc' : bufferAlloc (s.sys.setKernel k) size with
    | error halt => simp only [alloc'] at done; cases done
    | ok result =>
      obtain ⟨⟨addr, err⟩, k'⟩ := result
      by_cases fine : err = .ok
      · subst fine
        simp only [alloc', Registry.setBuf_setBuf] at done
        obtain ⟨same, rfl⟩ := Prod.mk.inj (Except.ok.inj done)
        obtain ⟨which, rfl⟩ := Prod.mk.inj same
        obtain rfl := Int.ofNat.inj (MsgbufRId.mk.inj which).1
        exact ⟨k, k', reg, addr, size, inside, rfl, .inr ⟨rfl, rfl, alloc'⟩, rfl⟩
      · cases err <;> first | exact absurd rfl fine | (simp only [alloc'] at done; exact (refused _ _ done).elim)
  · rename_i without
    simp only [Registry.setBuf_setBuf] at done
    obtain ⟨same, rfl⟩ := Prod.mk.inj (Except.ok.inj done)
    obtain ⟨which, rfl⟩ := Prod.mk.inj same
    obtain rfl := Int.ofNat.inj (MsgbufRId.mk.inj which).1
    exact ⟨k, k, reg, 0, 0, inside, rfl, .inl ⟨by simpa using without, rfl, rfl⟩, rfl⟩

/-- What msgbuf_create does to the memory: a buffer gets frames that were not in use. -/
theorem msgbufCreate_extends {stale : Stale} {s s' : MsgSys} {name : List CChar} {size : Word} {sendBuf : Bool}
    {n : Nat} {buf : Option Word} {pos : Pos} (tables : SysTables s.sys pos) (live : s.sys.Live s.sys.current)
    (done : msgbufCreate stale s name size sendBuf = .ok ((⟨n, .ok⟩, buf), s')) (given : buf ≠ some 0) :
    ∃ pos' k, Extends s.sys.kernel k pos pos' ∧ s'.sys = s.sys.setKernel k ∧
      ∀ addr, buf = some addr → (s'.reg.buf n).addr = addr ∧ (s'.reg.buf n).size = size ∧
        (s'.reg.buf n).owner = s.sys.current ∧ ∃ frame, NewFrames s.sys.kernel k (s.sys.table s.sys.current) addr 0
          (memSizeToPages size).toNat frame := by
  obtain ⟨k, k', reg, addr, size', inside, alloc, how, rfl⟩ := msgbufCreate_made done
  have took := msgbufAlloc_extends tables.wf tables.layout alloc
  rcases how with ⟨_, rfl, rfl⟩ | ⟨rfl, rfl, mapped⟩
  · exact ⟨pos, k', took, rfl, fun addr none => by cases none⟩
  unfold bufferAlloc at mapped
  simp only [] at mapped
  split at mapped
  · cases mapped
  next vaddr _ =>
    split_ifs at mapped with full
    · cases mapped
    have root := tables.roots _ live
    obtain ⟨rfl, pos', frame, rest, frames⟩ := bufferLoop_frames (s.sys.table s.sys.current) vaddr addr k k' pos
      took.wf took.layout root 0 _ (fun zero => given (by rw [zero])) mapped
    refine ⟨pos', k', took.trans rest, rfl, fun addr' same => ?_⟩
    obtain rfl := Option.some.inj same
    have here := reg.buf_setBuf_self n (fun msgbuf =>
      { msgbuf.claim s.sys.current with addr := addr, size := size' }) inside
    refine ⟨by rw [here], by rw [here], by rw [here]; rfl, frame, frames.sees, fun j below used => ?_, frames.used,
      frames.distinct⟩
    exact frames.fresh j below (took.used _ used)

/-- The buffer of `n` is as it was in `s`, and its owner still translates it the same way. -/
structure SameBuffer (s s' : MsgSys) (n : Nat) : Prop where
  addr : (s'.reg.buf n).addr = (s.reg.buf n).addr
  size : (s'.reg.buf n).size = (s.reg.buf n).size
  pages : ∀ i, i < (memSizeToPages (s.reg.buf n).size).toNat →
    memUserGetKaddr s'.sys.kernel.mem (s'.sys.table (s'.reg.buf n).owner) (pageAt (s.reg.buf n).addr i) =
      memUserGetKaddr s.sys.kernel.mem (s.sys.table (s.reg.buf n).owner) (pageAt (s.reg.buf n).addr i)

instance (s s' : MsgSys) (n : Nat) : Decidable (SameBuffer s s' n) :=
  decidable_of_iff (_ ∧ _ ∧ _) ⟨fun ⟨addr, size, pages⟩ => ⟨addr, size, pages⟩, fun same =>
    ⟨same.addr, same.size, same.pages⟩⟩

/-- Every page of the connection from `n` to `r` is the one at the same place in the buffer of `n`. -/
def ZeroCopy (s : MsgSys) (n r : Nat) : Prop :=
  ∃ c, connGet (s.reg.buf n) r = some c ∧ ∀ i, i < (memSizeToPages (s.reg.buf n).size).toNat →
    memUserGetKaddr s.sys.kernel.mem (s.sys.table (s.reg.buf r).owner) (pageAt ((s.reg.buf n).connections c).addr i) =
      memUserGetKaddr s.sys.kernel.mem (s.sys.table (s.reg.buf n).owner) (pageAt (s.reg.buf n).addr i)

instance (s : MsgSys) (n r : Nat) : Decidable (ZeroCopy s n r) := by
  unfold ZeroCopy
  infer_instance

-- The connection that msgbuf_connect has made is the one that is found.
theorem connGet_new (msgbuf : Msgbuf) (recvId : Int) (c : Fin maxConn) (addr : Word)
    (alloc : connAlloc msgbuf recvId = .ok c) : connGet (msgbuf.setConn c ⟨recvId, addr⟩) recvId = some c := by
  unfold connAlloc at alloc
  split at alloc
  · cases alloc
  next unconnected =>
    have away := (Slots.first_none _).mp unconnected
    cases found : connGet (msgbuf.setConn c ⟨recvId, addr⟩) recvId with
    | none =>
      have hidden := (Slots.first_none _).mp found c
      simp [Msgbuf.setConn] at hidden
    | some c' =>
      have there := Slots.first_some _ c' found
      by_cases same : c' = c
      · rw [same]
      · simp only [Msgbuf.setConn, Function.update_of_ne same] at there
        rw [away c'] at there
        cases there

/-- When msgbuf_connect has made a connection to a buffer that msgbuf_create has made and nobody has
changed since, the receiver sees the sender's pages exactly when there is no more than one. -/
theorem connect_zeroCopy_iff (stale : Stale) (s₀ s₁ s s' : MsgSys) (pos₀ pos : Pos) (name recvName : List CChar)
    (size addr : Word) (n r : Nat) (tables₀ : SysTables s₀.sys pos₀) (running : s₀.sys.Live s₀.sys.current)
    (created : msgbufCreate stale s₀ name size true = .ok ((⟨n, .ok⟩, some addr), s₁)) (given : addr ≠ 0)
    (same : SameBuffer s₁ s n) (tables : SysTables s.sys pos) (sender : s.sys.Live (s.reg.buf n).owner)
    (receiver : s.sys.Live (s.reg.buf r).owner)
    (connected : msgbufConnect s n recvName = .ok (⟨r, .ok⟩, s')) :
    ZeroCopy s' n r ↔ (memSizeToPages size).toNat ≤ 1 := by
  obtain ⟨pos₁, k₁, extends₁, system₁, made⟩ := msgbufCreate_extends tables₀ running created (by simpa using given)
  obtain ⟨addr₁, size₁, owner₁, frame, frames⟩ := made addr rfl
  have root₁ : pos₁ (s₁.sys.table s₀.sys.current) = some [] := by
    rw [system₁]
    exact extends₁.keepsPos _ _ (tables₀.roots _ running)
  have addrN : (s.reg.buf n).addr = addr := same.addr.trans addr₁
  have sizeN : (s.reg.buf n).size = size := same.size.trans size₁
  -- The sender's frames when the connection is made.
  have sees (i : Nat) (inside : i < (memSizeToPages size).toNat) :
      Sees s.sys.kernel (s.sys.table (s.reg.buf n).owner) (pageAt addr i) (frame i) := by
    have before := frames.sees i inside
    rw [Nat.zero_add] at before
    have kept := same.pages i (by rw [size₁]; exact inside)
    rw [addr₁, owner₁] at kept
    refine sees_of_kaddr tables.layout (tables.roots _ sender) _ _ (kept.trans ?_) before.page.2
    rw [system₁] at root₁ ⊢
    exact before.kaddr extends₁.layout root₁
  rcases msgbufConnect_ok s s' n recvName ⟨r, .ok⟩ connected with
    ⟨_, _, failed⟩ | ⟨n', recvId, r', c, recvBuf, k, foundN, _, _, foundR, place, is, _, loop, rfl⟩
  · exact absurd rfl failed
  obtain ⟨sameN, inside⟩ := msgbufGet_inside s.reg n n' foundN
  obtain rfl : n = n' := sameN.symm
  obtain rfl := (MsgbufRId.mk.inj is).1
  obtain rfl : r = r' := (msgbufGet_inside s.reg r r' foundR).1.symm
  rw [addrN, sizeN] at loop
  have bufN := s.reg.buf_setBuf_self n (fun msgbuf => msgbuf.setConn c ⟨r, recvBuf⟩) inside
  have ownerR : ((s.reg.setBuf n fun msgbuf => msgbuf.setConn c ⟨r, recvBuf⟩).buf r).owner = (s.reg.buf r).owner := by
    by_cases here : r = n
    · rw [here, s.reg.buf_setBuf_self n _ inside]
      rfl
    · rw [s.reg.buf_setBuf_of_ne n _ r here]
  have found := connGet_new _ _ c recvBuf place
  have view : ZeroCopy ⟨s.sys.setKernel k, s.reg.setBuf n fun msgbuf => msgbuf.setConn c ⟨r, recvBuf⟩⟩ n r ↔
      ∀ i, i < (memSizeToPages size).toNat →
        memUserGetKaddr k.mem (s.sys.table (s.reg.buf r).owner) (pageAt recvBuf i) =
          memUserGetKaddr k.mem (s.sys.table (s.reg.buf n).owner) (pageAt addr i) := by
    unfold ZeroCopy
    simp only [bufN, ownerR, found, Option.some.injEq, exists_eq_left']
    simp only [Msgbuf.setConn, Function.update_self, sizeN, addrN]
    rfl
  rw [view]
  by_cases none : (memSizeToPages size).toNat = 0
  · simp [none]
  have positive := Nat.pos_of_ne_zero none
  have first := sees 0 positive
  rw [show pageAt addr 0 = addr by simp [pageAt]] at first
  obtain ⟨pos', step, framesR⟩ := connectLoop_frames _ addr _ recvBuf (frame 0) s.sys.kernel k pos tables.wf
    tables.layout (tables.roots _ sender) (tables.roots _ receiver) first 0 _ loop
  have rootS := step.keepsPos _ _ (tables.roots _ sender)
  have rootR := step.keepsPos _ _ (tables.roots _ receiver)
  have both (i : Nat) (inside : i < (memSizeToPages size).toNat) :
      memUserGetKaddr k.mem (s.sys.table (s.reg.buf r).owner) (pageAt recvBuf i) = frame 0 ∧
        memUserGetKaddr k.mem (s.sys.table (s.reg.buf n).owner) (pageAt addr i) = frame i := by
    have there := framesR i inside
    rw [Nat.zero_add] at there
    exact ⟨there.kaddr step.layout rootR, (step.sees (tables.roots _ sender) (sees i inside)).kaddr step.layout rootS⟩
  constructor
  · intro all
    by_contra more
    have second : 1 < (memSizeToPages size).toNat := Nat.lt_of_not_le more
    have equal := all 1 second
    rw [(both 1 second).1, (both 1 second).2] at equal
    exact absurd (frames.distinct 0 1 positive second equal) (by simp)
  · intro one i inside
    obtain rfl : i = 0 := by omega
    rw [(both 0 inside).1, (both 0 inside).2]

-- One task with an empty table.
def viewStart : MsgSys := booted [20, 21, 22, 23, 24, 25, 26, 27, 28]

theorem viewStart_tables : SysTables viewStart.sys (posOf [(4, [])]) :=
  (oneTask_layout [] [20, 21, 22, 23, 24, 25, 26, 27, 28] [(4, [])] (by decide +kernel) (by decide +kernel)
    (by decide +kernel) (by decide)).tables

-- It makes a buffer of the given size and a message buffer to receive, and connects the two.
def viewed (size : Word) : Option (MsgSys × MsgSys × MsgSys × Word) :=
  match msgbufCreate zeroPages viewStart (letter 0) size true with
  | .ok ((⟨0, .ok⟩, some addr), s₁) =>
    match msgbufCreate zeroPages s₁ (letter 1) 0 false with
    | .ok ((⟨1, .ok⟩, none), s) =>
      match msgbufConnect s 0 (letter 1) with
      | .ok (⟨1, .ok⟩, s') => some (s₁, s, s', addr)
      | _ => none
    | _ => none
  | _ => none

theorem viewed_fits (size addr : Word) (s₁ s s' : MsgSys) (given : addr ≠ 0) (done : viewed size = some (s₁, s, s', addr))
    (owners : (s.reg.buf 0).owner = viewStart.sys.current ∧ (s.reg.buf 1).owner = viewStart.sys.current) :
    msgbufCreate zeroPages viewStart (letter 0) size true = .ok ((⟨(0 : Nat), .ok⟩, some addr), s₁) ∧
      msgbufConnect s (0 : Nat) (letter 1) = .ok (⟨(1 : Nat), .ok⟩, s') ∧ ∃ pos, SysTables s.sys pos ∧
        s.sys.Live (s.reg.buf 0).owner ∧ s.sys.Live (s.reg.buf 1).owner := by
  unfold viewed at done
  split at done
  next addr' s₁' created =>
    split at done
    next s' received =>
      split at done
      next s'' connected =>
        cases done
        have live : viewStart.sys.Live viewStart.sys.current := ⟨0, rfl⟩
        obtain ⟨pos₁, k₁, extends₁, system₁, _⟩ := msgbufCreate_extends (n := 0) viewStart_tables live created
          (by simpa using given)
        have tables₁ := viewStart_tables.extend extends₁
        rw [← system₁] at tables₁
        have live₁ : s₁.sys.Live s₁.sys.current := by
          rw [system₁]
          exact live
        obtain ⟨pos₂, k₂, extends₂, system₂, _⟩ := msgbufCreate_extends (n := 1) tables₁ live₁ received (by simp)
        have tables₂ := tables₁.extend extends₂
        rw [← system₂] at tables₂
        have live₂ : s.sys.Live viewStart.sys.current := by
          rw [system₂, system₁]
          exact live
        exact ⟨created, connected, pos₂, tables₂, by rw [owners.1]; exact live₂, by rw [owners.2]; exact live₂⟩
      · cases done
    · cases done
  · cases done

-- The second page of a buffer of two pages shows the first one to the receiver.
theorem twoPages_aliased :
    ¬ ∀ (stale : Stale) (s₀ s₁ s s' : MsgSys) (pos₀ pos : Pos) (name recvName : List CChar) (size addr : Word)
      (n r : Nat), SysTables s₀.sys pos₀ → s₀.sys.Live s₀.sys.current →
      msgbufCreate stale s₀ name size true = .ok ((⟨n, .ok⟩, some addr), s₁) → addr ≠ 0 → SameBuffer s₁ s n →
      SysTables s.sys pos → s.sys.Live (s.reg.buf n).owner → s.sys.Live (s.reg.buf r).owner →
      msgbufConnect s n recvName = .ok (⟨r, .ok⟩, s') → ZeroCopy s' n r := by
  intro claim
  have played : (viewed 0x2000).map (fun (s₁, s, s', addr) => (addr, decide (SameBuffer s₁ s 0),
      decide ((s.reg.buf 0).owner = poolVa 10 ∧ (s.reg.buf 1).owner = poolVa 10), decide (ZeroCopy s' 0 1))) =
      some (0x200000, true, true, false) := by decide +kernel
  obtain ⟨⟨s₁, s, s', addr⟩, done, same⟩ := Option.map_eq_some_iff.mp played
  simp only [Prod.mk.injEq, decide_eq_true_eq, decide_eq_false_iff_not] at same
  obtain ⟨given, kept, owners, hidden⟩ := same
  have nonzero : addr ≠ 0 := by rw [given]; decide
  obtain ⟨created, connected, pos, tables, sender, receiver⟩ := viewed_fits _ addr s₁ s s' nonzero done owners
  exact hidden (claim zeroPages viewStart s₁ s s' _ pos _ _ _ addr 0 1 viewStart_tables ⟨0, rfl⟩ created nonzero kept
    tables sender receiver connected)

theorem connect_zeroCopy_iff_onePage : ∃ (s₁ s s' : MsgSys) (addr : Word),
    viewed 0x1000 = some (s₁, s, s', addr) ∧ (ZeroCopy s' 0 1 ↔ (memSizeToPages 0x1000).toNat ≤ 1) := by
  have played : (viewed 0x1000).map (fun (s₁, s, _, addr) => (addr, decide (SameBuffer s₁ s 0),
      decide ((s.reg.buf 0).owner = poolVa 10 ∧ (s.reg.buf 1).owner = poolVa 10))) =
      some (0x200000, true, true) := by decide +kernel
  obtain ⟨⟨s₁, s, s', addr⟩, done, same⟩ := Option.map_eq_some_iff.mp played
  simp only [Prod.mk.injEq, decide_eq_true_eq] at same
  obtain ⟨given, kept, owners⟩ := same
  have nonzero : addr ≠ 0 := by rw [given]; decide
  obtain ⟨created, connected, pos, tables, sender, receiver⟩ := viewed_fits _ addr s₁ s s' nonzero done owners
  exact ⟨s₁, s, s', addr, done, connect_zeroCopy_iff zeroPages viewStart s₁ s s' _ pos _ _ _ addr 0 1
    viewStart_tables ⟨0, rfl⟩ created nonzero kept tables sender receiver connected⟩

end Anthill
