import Anthill.CowAdequacy

set_option autoImplicit false

namespace Anthill

open Radix

/-- What a page was mapped with, `none` for a page that user space has no access to. -/
abbrev Protection := Option MemPerm

/-- A leaf gives user space no more than its page was mapped with. -/
def Within (prot : Protection) (entry : Word) : Prop :=
  (apBits entry = attApRwRw → prot = some .rw) ∧ (apBits entry = attApRoRo → prot ≠ none)

theorem within_congr (prot : Protection) (e e' : Word) (same : apBits e' = apBits e) :
    Within prot e' ↔ Within prot e := by
  rw [Within, Within, same]

theorem within_mmuMarkCopied (prot : Protection) (e : Word) (within : Within prot e) :
    Within prot (mmuMarkCopied e) := by
  have demoted : attApNaRo ≠ attApRwRw ∧ attApNaRo ≠ attApRoRo := by decide
  rw [Within, mmuMarkCopied_ap]
  split_ifs with written
  · exact ⟨fun same => absurd same demoted.1, fun same => absurd same demoted.2⟩
  · exact within

theorem within_rw (e : Word) : Within (some .rw) e := ⟨fun _ => rfl, fun _ => by simp⟩

-- mem_user_map_page gives a page the permission it is asked for.
theorem userLeaf_within (va pattr : Word) (perm : MemPerm) (attr : MemAttr) (page : IsPage va)
    (known : userAttr perm = some pattr) :
    Within (some perm) (userLeaf (virtToPhys va) (pattr ||| memAttr attr)) := by
  have bits : apBits (userLeaf (virtToPhys va) (pattr ||| memAttr attr)) =
      apBits (userLeaf 0 (pattr ||| memAttr attr)) := by
    simp only [apBits, userLeaf, BitVec.or_assoc]
    rw [page_or_and va _ _ page (by decide)]
    simp
  rw [within_congr _ _ _ bits]
  refine ⟨fun written => ?_, fun _ => by simp⟩
  have check : ∀ perm attr pattr, userAttr perm = some pattr → perm ≠ .rw →
      apBits (userLeaf 0 (pattr ||| memAttr attr)) ≠ attApRwRw := by
    intro perm attr pattr known other
    cases perm <;> cases attr <;> simp only [userAttr, Option.some.injEq, reduceCtorEq] at known <;>
      subst known
    all_goals first
      | exact absurd rfl other
      | decide
  by_contra other
  exact check perm attr pattr known (fun same => other (by rw [same])) written

/-- The leaves of the trees of `R` are within the protection of their pages, and trees that share a
level-3 table agree about its pages. -/
structure Protects (m : Mem) (R : Finset Word) (prot : Word → List Idx → Protection) : Prop where
  leaves : ∀ u, u ∈ R → ∀ r p i, r.length = 3 → node nav m u r = some p →
    mmuIsValid (m p i) = true → Within (prot u (r ++ [i])) (m p i)
  agree : ∀ u w, u ∈ R → w ∈ R → ∀ r p i, r.length = 3 → node nav m u r = some p →
    node nav m w r = some p → prot u (r ++ [i]) = prot w (r ++ [i])

-- The access bits of the leaves are within those before, and the walks are the same.
theorem Protects.congr {m m' : Mem} {R : Finset Word} {prot : Word → List Idx → Protection}
    (protects : Protects m R prot)
    (walks : ∀ u, u ∈ R → ∀ r, r.length = 3 → node nav m' u r = node nav m u r)
    (bits : ∀ u, u ∈ R → ∀ r p i, r.length = 3 → node nav m u r = some p →
      mmuIsValid (m' p i) = true → mmuIsValid (m p i) = true ∧
        (Within (prot u (r ++ [i])) (m p i) → Within (prot u (r ++ [i])) (m' p i))) :
    Protects m' R prot where
  leaves u inside r p i deep found valid := by
    rw [walks u inside r deep] at found
    obtain ⟨valid, within⟩ := bits u inside r p i deep found valid
    exact within (protects.leaves u inside r p i deep found valid)
  agree u w insideU insideW r p i deep foundU foundW := by
    rw [walks u insideU r deep] at foundU
    rw [walks w insideW r deep] at foundW
    exact protects.agree u w insideU insideW r p i deep foundU foundW

section Replaced

variable {k k' : Kernel} {pos : Pos} {R : Finset Word} {t above va : Word} {q : List Idx} {a i : Idx}
  {prot : Word → List Idx → Protection} (protects : Protects k.mem R prot)
  (roots : ∀ u, u ∈ R → pos u = some [])

include protects roots

theorem Protects.replaced (site : Site k pos t above q a) (upper : q.length < 3)
    (replaced : Replaced k k' above a (k.next above a) i va) : Protects k'.mem R prot := by
  have walks (u : Word) (inside : u ∈ R) (r : List Idx) (deep : r.length = 3) :=
    replaced.walks site upper u (roots u inside) r (by omega)
  have unused := replaced.unused site
  have at3 (u : Word) (inside : u ∈ R) (r : List Idx) (p : Word) (deep : r.length = 3)
      (found : node nav k.mem u r = some p) : pos p = some r :=
    site.layout.typed.node_pos u p r (roots u inside) (by omega) found
  -- Counting a leaf down leaves its access bits alone.
  have bits (p : Word) (r : List Idx) (j : Idx) (deep : r.length = 3) (position : pos p = some r) :
      mmuIsValid (k'.mem p j) = mmuIsValid (k.mem p j) ∧ apBits (k'.mem p j) = apBits (k.mem p j) := by
    have notAbove : p ≠ above := by
      rintro rfl
      obtain rfl := Option.some.inj (site.here.symm.trans position)
      omega
    rcases replaced.changes site p r j position (.inl notAbove) with ⟨rfl, rfl⟩ | same
    · rw [replaced.freed]
      exact ⟨isValid_congr _ _ (mmuMarkFreed_nav _), mmuMarkFreed_ap _⟩
    · rw [same]
      exact ⟨rfl, rfl⟩
  have next (u : Word) (through : node nav k.mem u q = some above) :
      node nav k.mem u (q ++ [a]) = some (k.next above a) := by
    rw [node_concat_some nav k.mem u above q a through]
    exact site.goes
  have old (u : Word) (inside : u ∈ R) (r : List Idx) (p : Word) (deep : r.length = 3)
      (found : node nav k'.mem u r = some p) :
      (p = va ∧ r = q ++ [a] ∧ node nav k.mem u q = some above) ∨
        (p ≠ va ∧ node nav k.mem u r = some p) := by
    rw [walks u inside r deep] at found
    split_ifs at found with moved
    · exact .inl ⟨(Option.some.inj found).symm, moved⟩
    · refine .inr ⟨?_, found⟩
      rintro rfl
      rw [at3 u inside r p deep found] at unused
      cases unused
  constructor
  case leaves =>
    intro u inside r p j deep found valid
    rcases old u inside r p deep found with ⟨rfl, rfl, through⟩ | ⟨_, before⟩
    · have walk := next u through
      have same := bits _ _ j deep (at3 u inside _ _ deep walk)
      rw [replaced.row] at valid ⊢
      rw [same.1] at valid
      rw [within_congr _ _ _ same.2]
      exact protects.leaves u inside _ _ j deep walk valid
    · have same := bits p r j deep (at3 u inside r p deep before)
      rw [same.1] at valid
      rw [within_congr _ _ _ same.2]
      exact protects.leaves u inside r p j deep before valid
  case agree =>
    intro u w insideU insideW r p j deep foundU foundW
    rcases old u insideU r p deep foundU with ⟨new, path, throughU⟩ | ⟨away, beforeU⟩ <;>
      rcases old w insideW r p deep foundW with ⟨new', _, throughW⟩ | ⟨away', beforeW⟩
    · subst path
      exact protects.agree u w insideU insideW _ _ j deep (next u throughU) (next w throughW)
    · exact absurd new away'
    · exact absurd new' away
    · exact protects.agree u w insideU insideW r p j deep beforeU beforeW

theorem Protects.copied (member : t ∈ R) (site : Site k pos t above q i) (deep : q.length = 3)
    (copied : DataCopied k k' above i va) (written : prot t (q ++ [i]) = some .rw) :
    Protects k'.mem R prot := by
  refine protects.congr (fun u inside r size => ?_) fun u inside r p j size found valid => ?_
  · rw [copied.walks site deep u (roots u inside) r (by omega), if_neg]
    rintro ⟨rfl, _⟩
    rw [List.length_append, List.length_singleton] at size
    omega
  · by_cases leaf : p = above ∧ j = i
    · obtain ⟨rfl, rfl⟩ := leaf
      have position := site.layout.typed.node_pos u p r (roots u inside) (by omega) found
      obtain rfl := Option.some.inj (site.here.symm.trans position)
      refine ⟨site.valid, fun _ => ?_⟩
      rw [← protects.agree t u member inside q p j deep site.walk found, written]
      exact within_rw _
    · have away : p ≠ above ∨ j ≠ i := not_and_or.mp leaf
      have position := site.layout.typed.node_pos u p r (roots u inside) (by omega) found
      rw [copied.others p j (site.layout.inUse p r position) away] at valid ⊢
      exact ⟨valid, id⟩

end Replaced

theorem Protects.countDown {k : Kernel} {R : Finset Word} {prot : Word → List Idx → Protection}
    (protects : Protects k.mem R prot) (level : Word) (i : Idx) :
    Protects (k.countDown level i).mem R prot := by
  have shape := shape_of_touched (Touched.one (fun e => (mmuMarkFreed e).2) k.mem level i)
    mmuMarkFreed_nav
  rw [countDown_mem]
  refine protects.congr (fun u _ r _ => shape.walk u r) fun u _ r p j _ _ valid => ?_
  rw [shape.valid] at valid
  refine ⟨valid, fun within => ?_⟩
  by_cases counted : p = level ∧ j = i
  · obtain ⟨rfl, rfl⟩ := counted
    rw [put_same, within_congr _ _ _ (mmuMarkFreed_ap _)]
    exact within
  · have away : p ≠ level ∨ j ≠ i := not_and_or.mp counted
    rw [put_other _ _ _ _ _ _ away]
    exact within

/-- A fault at an address that is not mapped or was mapped for writing keeps every protection. -/
theorem abort_protects (k : Kernel) (pos : Pos) (R : Finset Word)
    (prot : Word → List Idx → Protection) (table vaddr : Word) (wf : KernelWf k)
    (layout : TaskLayout k pos) (roots : ∀ u, u ∈ R → pos u = some [])
    (member : physToVirt table ∈ R) (protects : Protects k.mem R prot)
    (fine : ∀ c, node nav k.mem (physToVirt table) (mmuGetTableIdx vaddr) = some c →
      prot (physToVirt table) (mmuGetTableIdx vaddr) = some .rw) :
    ∃ k' pos' r, mmuHandleDataAbort k table vaddr = (r, k') ∧ Aborted k k' pos pos' ∧
      Protects k'.mem R prot := by
  have rule : CowRule (physToVirt table)
      (fun k₁ pos₁ _ q rest => Protects k₁.mem R prot ∧ (∀ u, u ∈ R → pos₁ u = some []) ∧
        q ++ rest = mmuGetTableIdx vaddr ∧
        ∀ c, node nav k₁.mem (physToVirt table) (mmuGetTableIdx vaddr) = some c →
          prot (physToVirt table) (mmuGetTableIdx vaddr) = some .rw)
      (fun _ k' _ => Protects k'.mem R prot) := by
    constructor
    case absent => exact fun _ _ _ _ holds _ => holds.1
    case missing => exact fun _ _ _ _ _ _ _ _ _ holds _ => holds.1
    case full => exact fun _ _ _ _ _ _ _ holds _ => holds.1
    case kept =>
      rintro k₁ pos₁ above q a i idx site upper ⟨protects, roots, path, fine⟩ _ _
      exact ⟨protects, roots, by simpa using path, fine⟩
    case dry =>
      rintro k₁ pos₁ above q a i idx _ _ ⟨protects, _⟩ _ _ _
      exact protects.countDown _ i
    case replaced =>
      rintro k₁ k₂ pos₁ above q a i idx va site upper ⟨protects, roots, path, fine⟩ _ _ replaced
      refine ⟨protects.replaced roots site upper replaced, fun u inside => ?_, by simpa using path,
        fun c found => fine c ?_⟩
      · exact extend_keeps (replaced.unused site) (roots u inside)
      · rw [replaced.walks site upper _ site.root _ (by simp), if_neg] at found
        · exact found
        · rintro ⟨same, _⟩
          have size := congrArg List.length same
          simp at size
          omega
    case copied =>
      rintro k₁ k₂ pos₁ level3 q i va site deep ⟨protects, roots, path, fine⟩ copied
      refine protects.copied roots member site deep copied ?_
      rw [path]
      exact fine _ (by rw [← path]; exact site.nextWalk)
  obtain ⟨done, k', pos', result, aborted, holds⟩ := rule.abort k pos table vaddr rfl wf layout
    (roots _ member) ⟨protects, roots, rfl, fine⟩
  exact ⟨k', pos', _, result, aborted, holds⟩

section Fork

variable {s s' : Sys} {pos : Pos} {child : Word} {prot : Word → List Idx → Protection}
  (system : SysLayout s pos) (forked : ForkedSys s s' pos child)

include system forked

theorem ForkedSys.protects (protects : Protects s.kernel.mem s.roots prot) :
    Protects s'.kernel.mem s'.roots
      (Function.update prot (s'.table child) (prot (s.table s.current))) := by
  have current := system.roots _ system.running
  have currentRoot : s.table s.current ∈ s.roots := (mem_roots s _).mpr ⟨_, system.running, rfl⟩
  -- Every tree is that of an old task, whose protections it has.
  have old (u : Word) (inside : u ∈ s'.roots) : ∃ w, w ∈ s.roots ∧
      (∀ r, r.length = 3 → node nav s'.kernel.mem u r = node nav s.kernel.mem w r) ∧
      Function.update prot (s'.table child) (prot (s.table s.current)) u = prot w := by
    by_cases new : u = s'.table child
    · subst new
      refine ⟨_, currentRoot, fun r deep => ?_, Function.update_self ..⟩
      rw [twin_node (forked.twins system) r (by rintro rfl; simp at deep),
        forked.walks system _ current r (by omega)]
    · have before : u ∈ s.roots :=
        (forked.newRoots system u inside).resolve_right fun both => new both.1
      exact ⟨u, before, fun r deep => forked.walks system u (system.rooted u before) r (by omega),
        Function.update_of_ne new ..⟩
  constructor
  case leaves =>
    intro u inside r p i deep found valid
    obtain ⟨w, before, walks, same⟩ := old u inside
    rw [walks r deep] at found
    rw [same]
    have position := system.layout.typed.node_pos w p r (system.rooted w before) (by omega) found
    rw [isValid_congr _ _ (forked.shape system p r i position)] at valid
    have within := protects.leaves w before r p i deep found valid
    by_cases lower : Lower s.kernel.mem (s.table s.current) p i
    · rw [forked.forked.marks p i lower]
      exact within_mmuMarkCopied _ _ within
    · rw [forked.forked.others p i (system.layout.inUse p r position) lower]
      exact within
  case agree =>
    intro u w insideU insideW r p i deep foundU foundW
    obtain ⟨u', beforeU, walksU, sameU⟩ := old u insideU
    obtain ⟨w', beforeW, walksW, sameW⟩ := old w insideW
    rw [walksU r deep] at foundU
    rw [walksW r deep] at foundW
    rw [sameU, sameW]
    exact protects.agree u' w' beforeU beforeW r p i deep foundU foundW

end Fork

theorem Taken.protects {k k' : Kernel} {pos : Pos} {pages : List Word} {R : Finset Word}
    {prot : Word → List Idx → Protection} (taken : Taken k k' pages) (layout : TaskLayout k pos)
    (roots : ∀ u, u ∈ R → pos u = some []) (protects : Protects k.mem R prot) :
    Protects k'.mem R prot := by
  have same (p : Word) (r : List Idx) (position : pos p = some r) : k'.mem p = k.mem p :=
    taken.keeps p (layout.inUse p r position)
  refine protects.congr (fun u inside r deep => ?_) fun u inside r p i deep found valid => ?_
  · exact layout.typed.node_same u (fun p q j position => by rw [same p q position]) (roots u inside) r
      (by omega)
  · have position := layout.typed.node_pos u p r (roots u inside) (by omega) found
    rw [same p r position] at valid ⊢
    exact ⟨valid, id⟩

/-- A system with what the pages of each top-level table were mapped with. -/
structure ProtectedSys where
  sys : Sys
  prot : Word → List Idx → Protection

-- A child's pages keep the protection they have in its parent.
def CowCall.inherit (s : Sys) (prot : Word → List Idx → Protection) :
    CowCall → Word → List Idx → Protection
  | .fork ptr =>
    match forkedChild (s.switchTo ptr) with
    | some child => Function.update prot (((CowCall.fork ptr).run s).table child) (prot (s.table ptr))
    | none => prot
  | .abort _ _ => prot

def ProtectedSys.Step (s : ProtectedSys) (call : CowCall) (s' : ProtectedSys) : Prop :=
  s' = ⟨call.run s.sys, call.inherit s.sys s.prot⟩

/-- A fault happens where nothing is mapped, or a page that was mapped for writing. -/
def ProtectedSys.WriteFault (s : ProtectedSys) : CowCall → Prop
  | .fork _ => True
  | .abort ptr vaddr =>
    ∀ c, node nav s.sys.kernel.mem (s.sys.table ptr) (mmuGetTableIdx vaddr) = some c →
      s.prot (s.sys.table ptr) (mmuGetTableIdx vaddr) = some .rw

def ProtectedSys.Safe (s : ProtectedSys) : Prop := Protects s.sys.kernel.mem s.sys.roots s.prot

theorem fork_safe (s : ProtectedSys) (pos : Pos) (ptr : Word) (system : SysLayout s.sys pos)
    (safe : s.Safe) (live : s.sys.Live ptr) :
    ∃ pos', SysLayout ((CowCall.fork ptr).run s.sys) pos' ∧
      Protects ((CowCall.fork ptr).run s.sys).kernel.mem ((CowCall.fork ptr).run s.sys).roots
        ((CowCall.fork ptr).inherit s.sys s.prot) := by
  have switched : (s.sys.switchTo ptr).roots = s.sys.roots := roots_same rfl fun _ => rfl
  have system := system.switchTo ptr live
  have protects : Protects (s.sys.switchTo ptr).kernel.mem (s.sys.switchTo ptr).roots s.prot := by
    rw [switched]
    exact safe
  rcases taskFork_spec (s.sys.switchTo ptr) pos system with
    ⟨child, _, new, _, forked⟩ | ⟨pages, _, new, _, taken, tasks, current, tables⟩
  · refine ⟨_, forked.system system, ?_⟩
    have inherit : (CowCall.fork ptr).inherit s.sys s.prot = Function.update s.prot
        (((CowCall.fork ptr).run s.sys).table child) (s.prot (s.sys.table ptr)) := by
      simp only [CowCall.inherit, new]
    have run : (CowCall.fork ptr).run s.sys = (taskFork (s.sys.switchTo ptr)).2 := rfl
    have table : s.sys.table ptr = (s.sys.switchTo ptr).table (s.sys.switchTo ptr).current := rfl
    rw [inherit, run, table]
    exact forked.protects system protects
  · refine ⟨pos, system.taken taken tasks current tables, ?_⟩
    have inherit : (CowCall.fork ptr).inherit s.sys s.prot = s.prot := by
      simp only [CowCall.inherit, new]
    have roots : ((CowCall.fork ptr).run s.sys).roots = (s.sys.switchTo ptr).roots :=
      roots_same tasks tables
    rw [inherit, roots]
    exact taken.protects system.layout system.rooted protects

theorem abort_safe (s : ProtectedSys) (pos : Pos) (ptr vaddr : Word) (system : SysLayout s.sys pos)
    (safe : s.Safe) (live : s.sys.Live ptr) (fine : s.WriteFault (.abort ptr vaddr)) :
    ∃ pos', SysLayout ((CowCall.abort ptr vaddr).run s.sys) pos' ∧
      Protects ((CowCall.abort ptr vaddr).run s.sys).kernel.mem
        ((CowCall.abort ptr vaddr).run s.sys).roots s.prot := by
  have member : s.sys.table ptr ∈ s.sys.roots := (mem_roots s.sys _).mpr ⟨ptr, live, rfl⟩
  obtain ⟨k', pos', r, result, aborted, protects⟩ := abort_protects s.sys.kernel pos s.sys.roots s.prot
    (s.sys.task ptr).tranTable vaddr system.wf system.layout system.rooted member safe fine
  have after : (CowCall.abort ptr vaddr).run s.sys = { s.sys.switchTo ptr with kernel := k' } := by
    show ({ s.sys.switchTo ptr with kernel :=
      (mmuHandleDataAbort s.sys.kernel (s.sys.task ptr).tranTable vaddr).2 } : Sys) = _
    rw [result]
  have roots : ({ s.sys.switchTo ptr with kernel := k' } : Sys).roots = s.sys.roots :=
    roots_same rfl fun _ => rfl
  rw [after, roots]
  exact ⟨pos', (system.switchTo ptr live).aborted aborted, protects⟩

/-- In a run of forks and faults in which every fault happens where nothing is mapped or at a page that
was mapped for writing, no leaf ever gives user space more than its page was mapped with. -/
theorem protection_survives (s₀ s : ProtectedSys) (pos : Pos) (system : SysLayout s₀.sys pos)
    (safe : s₀.Safe)
    (run : Run ProtectedSys.Step
      (fun s call => s.sys.Live call.actor ∧ s.WriteFault call) s₀ s) : s.Safe := by
  obtain ⟨_, _, holds⟩ : ∃ pos', SysLayout s.sys pos' ∧ s.Safe := by
    refine run.invariant (fun s => ∃ pos', SysLayout s.sys pos' ∧ s.Safe) ⟨pos, system, safe⟩ ?_
    rintro s call s' ⟨pos', system', holds⟩ ⟨live, fine⟩ rfl
    cases call with
    | fork ptr => exact fork_safe s pos' ptr system' holds live
    | abort ptr vaddr => exact abort_safe s pos' ptr vaddr system' holds live fine
  exact holds

-- One task with pool page 8 at 0x200000, mapped read-only.
def readOnlyPage : List Cell :=
  [⟨4, 0, tableEntry (poolVa 5)⟩, ⟨5, 0, tableEntry (poolVa 6)⟩, ⟨6, 1, tableEntry (poolVa 7)⟩,
    ⟨7, 0, userLeaf (poolPage 8) (attApRoRo ||| attPxnNoexec ||| attUxnNoexec)⟩]

def readOnly (free : List Nat) : ProtectedSys where
  sys := oneTask readOnlyPage free
  prot _ _ := some .ro

theorem readOnly_fits : Fits readOnlyPage [20] onePageTables ∧ TaskFits readOnlyPage onePageTables ∧
    CrewFits [⟨10, 4, 11, 10, 0⟩] [20] onePageTables 10 ∧
      ∀ cell, cell ∈ readOnlyPage → ∀ table, table ∈ onePageTables → cell.page = table.1 →
        table.2.length = 3 → apBits cell.entry = attApRoRo := by
  decide +kernel

theorem readOnly_layout : SysLayout (readOnly [20]).sys (posOf onePageTables) :=
  crew_layout readOnlyPage [20] [⟨10, 4, 11, 10, 0⟩] 10 onePageTables readOnly_fits.2.2.1
    readOnly_fits.1 readOnly_fits.2.1

theorem readOnly_safe : (readOnly [20]).Safe where
  leaves u inside r p i deep found valid := by
    have rooted := readOnly_layout.rooted u inside
    have position := readOnly_layout.layout.typed.node_pos u p r rooted (by omega) found
    obtain ⟨n, table, rfl, cell⟩ := machine_cell readOnlyPage [20] onePageTables readOnly_fits.1 p r i
      position valid
    have bits := readOnly_fits.2.2.2 _ cell _ table rfl deep
    have kernel : (readOnly [20]).sys.kernel = machine readOnlyPage [20] := rfl
    rw [kernel]
    generalize (machine readOnlyPage [20]).mem (poolVa n) i = entry at bits
    refine ⟨fun written => ?_, fun _ => by simp [readOnly]⟩
    exact absurd (bits.symm.trans written) (by decide)
  agree _ _ _ _ _ _ _ _ _ _ := rfl

-- The fault makes a read-only page writable.
theorem readOnly_fault :
    let k := (mmuHandleDataAbort (machine readOnlyPage [20]) (poolPage 4) 0x200000).2
    node nav k.mem (poolVa 4) [0, 0, 1] = some (poolVa 7) ∧ mmuIsValid (k.mem (poolVa 7) 0) = true ∧
      apBits (k.mem (poolVa 7) 0) = attApRwRw := by
  decide +kernel

theorem readOnly_table : (readOnly [20]).sys.table (poolVa 10) = poolVa 4 :=
  crew_table readOnlyPage [20] _ 10 onePageTables readOnly_fits.2.2.1 ⟨10, 4, 11, 10, 0⟩
    List.mem_cons_self

theorem readOnly_overwritten : ¬ ∀ (s₀ s : ProtectedSys) (pos : Pos), SysLayout s₀.sys pos → s₀.Safe →
    Run ProtectedSys.Step (fun s call => s.sys.Live call.actor) s₀ s → s.Safe := by
  intro claim
  have system := readOnly_layout
  have safe : Protects _ _ _ := claim (readOnly [20])
    ⟨(CowCall.abort (poolVa 10) 0x200000).run (readOnly [20]).sys, _⟩ _ system readOnly_safe
    (.next _ _ (.abort (poolVa 10) 0x200000) .start system.running rfl)
  have kernel : ((CowCall.abort (poolVa 10) 0x200000).run (readOnly [20]).sys).kernel =
      (mmuHandleDataAbort (machine readOnlyPage [20]) (poolPage 4) 0x200000).2 := by
    have physical : ((readOnly [20]).sys.task (poolVa 10)).tranTable = poolPage 4 :=
      physToVirt_inj _ _ readOnly_table
    rw [← physical]
    rfl
  have roots : ((CowCall.abort (poolVa 10) 0x200000).run (readOnly [20]).sys).roots =
      (readOnly [20]).sys.roots := roots_same rfl fun _ => rfl
  have member : poolVa 4 ∈ (readOnly [20]).sys.roots :=
    (mem_roots _ _).mpr ⟨poolVa 10, system.running, readOnly_table⟩
  simp only [kernel, roots] at safe
  obtain ⟨walk, valid, written⟩ := readOnly_fault
  have known := (safe.leaves (poolVa 4) member [0, 0, 1] (poolVa 7) 0 rfl walk valid).1 written
  cases known

/-- A fault where nothing is mapped leaves the page read-only. -/
theorem protection_survives_unmapped : ∃ (s : ProtectedSys) (pos : Pos),
    SysLayout (readOnly [20]).sys pos ∧
    Run ProtectedSys.Step (fun s call => s.sys.Live call.actor ∧ s.WriteFault call)
      (readOnly [20]) s ∧ s.Safe := by
  have unmapped : node nav (machine readOnlyPage [20]).mem (poolVa 4) (mmuGetTableIdx 0x400000) =
      none := by decide +kernel
  have run : Run ProtectedSys.Step (fun s call => s.sys.Live call.actor ∧ s.WriteFault call)
      (readOnly [20]) _ :=
    .next _ _ (.abort (poolVa 10) 0x400000) .start ⟨readOnly_layout.running, fun c found => by
      rw [readOnly_table] at found
      cases unmapped.symm.trans found⟩ rfl
  exact ⟨_, _, readOnly_layout, run, protection_survives _ _ _ readOnly_layout readOnly_safe run⟩

end Anthill
