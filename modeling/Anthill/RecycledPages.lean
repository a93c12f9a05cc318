import Anthill.Elf
import Anthill.Lockstep
import Anthill.MsgbufView

set_option autoImplicit false

namespace Anthill

open Radix

/-- Two states that differ only in what the released pages hold. -/
structure Recycled (released : Word → Prop) (k k' : Kernel) : Prop where
  map : k'.memoryMap = k.memoryMap
  root : k'.kernelTable = k.kernelTable
  trace : k'.trace = k.trace
  rows : ∀ p, ¬ released p → k'.mem p = k.mem p

-- A page that is new in user memory, with the bytes of a file that go to it.
structure NewPage where
  vaddr : Word
  perm : MemPerm
  start : Nat
  bytes : List (BitVec 8)

def NewPage.anonymous (vaddr : Word) (perm : MemPerm) : NewPage := ⟨vaddr, perm, 0, []⟩

-- The bytes of the page that do not come from the file.
def NewPage.Rest (page : NewPage) (b : Nat) : Prop :=
  b < pageSize.toNat ∧ ¬ (page.start ≤ b ∧ b < page.start + page.bytes.length)

-- What a process reads at byte `b` of the page at `v`.
def byteAt (k : Kernel) (t v : Word) (b : Nat) : Option (BitVec 8) :=
  (node nav k.mem t (mmuGetTableIdx v)).map fun p => pageByte (k.mem p) b

/-- The call gives the process its new pages, and the same bytes in them, whatever the released pages hold. -/
def Unseen (released : Word → Prop) (k : Kernel) (t : Word) (pages : List NewPage) (call : Kernel → Kernel → Prop) :
    Prop :=
  ∀ k' k₁, Recycled released k k' → call k k₁ → ∃ k₁', call k' k₁' ∧
    ∀ page, page ∈ pages → ∀ b, page.Rest b → byteAt k₁' t page.vaddr b = byteAt k₁ t page.vaddr b

def tablesLackedBy (m : Mem) (t : Word) (vaddrs : List Word) : Nat :=
  (vaddrs.toFinset.biUnion fun v => lackedTables m t v).card

-- The pool page for `vaddrs[i]`: each page is taken before the tables it lacks, so these come in between.
def poolPageFor (k : Kernel) (t : Word) (vaddrs : List Word) (i : Nat) : Word :=
  nextPage (i + tablesLackedBy k.mem t (vaddrs.take i)) k

def placePage (t : Word) (k : Kernel) (page : NewPage) : Option Kernel :=
  match memKernelAllocPage k .rw with
  | (⟨va, .ok⟩, k) =>
    match memUserMapPage k t page.vaddr (virtToPhys va) page.perm .norm with
    | .ok (.ok, k) => some (k.writePage va (copyBytes (k.mem va) page.start page.bytes))
    | _ => none
  | _ => none

-- What the loops of _map_anonymous, _buffer_alloc and elf_create_proc_image do where they succeed.
def placePages (t : Word) : Kernel → List NewPage → Option Kernel
  | k, [] => some k
  | k, page :: pages => (placePage t k page).bind fun k => placePages t k pages

theorem Mapped.keepsPage {k k' : Kernel} {pos pos' : Pos} {a : Word} {i : Idx} {t v e : Word}
    (mapped : Mapped k k' pos pos' a i t v e) (p : Word) (used : InUse k p) (outside : pos p = none) :
    k'.mem p = k.mem p := by
  obtain ⟨r, at', _⟩ := mapped.hole a i rfl
  funext j
  refine mapped.frame p j used fun gap => ?_
  cases gap
  rw [outside] at at'
  cases at'

/-- The page in one run of two: in both, `va` is taken and mapped at the page's address, and gets the file's bytes. -/
structure PlacedAt (k₀ k₀' : Kernel) (t : Word) (pos : Pos) (k k' : Kernel) (page : NewPage) (va : Word) : Prop where
  sees : Sees k t page.vaddr va
  used : InUse k va
  outside : pos va = none
  free : Free k₀ va
  row : k.mem va = copyBytes (k₀.mem va) page.start page.bytes
  row' : k'.mem va = copyBytes (k₀'.mem va) page.start page.bytes

/-- Two runs from `k₀` and `k₀'` after the pages `done`. -/
structure Placed (k₀ k₀' : Kernel) (t : Word) (done : List NewPage) (pos : Pos) (k k' : Kernel) : Prop where
  process : Process k pos t
  agree : ∀ p r, pos p = some r → k'.mem p = k.mem p
  lock : Lockstep (done.length + tablesLackedBy k₀.mem t (done.map NewPage.vaddr)) k₀ k₀' k k'
  lacks : ∀ s, s.length ≤ 3 → (node nav k.mem t s = none ↔
    node nav k₀.mem t s = none ∧ ∀ v, v ∈ done.map NewPage.vaddr → ¬ s <+: upperIdx v)
  placed : ∀ i page, done[i]? = some page →
    PlacedAt k₀ k₀' t pos k k' page (poolPageFor k₀ t (done.map NewPage.vaddr) i)

theorem Process.twin {k k' : Kernel} {pos : Pos} {t : Word} (process : Process k pos t) (same : SameKernel k k')
    (agree : ∀ p r, pos p = some r → k'.mem p = k.mem p) : Process k' pos t :=
  ⟨same.wf process.wf, process.layout.congr agree fun p r position =>
    (same.inUse p).mpr (process.layout.inUse p r position), process.root⟩

theorem Process.twin_walk {k k' : Kernel} {pos : Pos} {t : Word} (process : Process k pos t)
    (agree : ∀ p r, pos p = some r → k'.mem p = k.mem p) (s : List Idx) (short : s.length ≤ 4) :
    node nav k'.mem t s = node nav k.mem t s :=
  process.layout.typed.node_same t (fun p r i position => by rw [agree p r position]) process.root s short

-- A page that is no table may get other contents.
theorem Process.overwritten {k k' : Kernel} {pos : Pos} {t : Word} (process : Process k pos t) (same : SameKernel k k')
    (agree : ∀ p r, pos p = some r → k'.mem p = k.mem p) : Extends k k' pos pos where
  wf := same.wf process.wf
  layout := (process.twin same agree).layout
  keepsPos _ _ := id
  used p inUse := (same.inUse p).mpr inUse
  walks u path c root short found := by
    rw [← found]
    exact process.layout.typed.node_same u (fun p r i position => by rw [agree p r position]) root path short

theorem tablesLackedBy_snoc (m m' : Mem) (t v : Word) (vaddrs : List Word) (lacks : ∀ s, s.length ≤ 3 →
    (node nav m' t s = none ↔ node nav m t s = none ∧ ∀ u, u ∈ vaddrs → ¬ s <+: upperIdx u)) :
    tablesLackedBy m t (vaddrs ++ [v]) = tablesLackedBy m t vaddrs + missingTables m' t (upperIdx v) := by
  have last := card_lacked_insert m m' t vaddrs.toFinset id v fun s short => by
    rw [lacks s short]
    simp only [List.mem_toFinset, id]
  have both : (vaddrs ++ [v]).toFinset = insert v vaddrs.toFinset := by
    rw [List.toFinset_append, List.toFinset_cons, List.toFinset_nil, Finset.union_comm]
    rfl
  rw [tablesLackedBy, tablesLackedBy, both]
  exact last.symm

theorem poolPageFor_append (k : Kernel) (t : Word) (vaddrs more : List Word) (i : Nat) (inside : i ≤ vaddrs.length) :
    poolPageFor k t (vaddrs ++ more) i = poolPageFor k t vaddrs i := by
  rw [poolPageFor, poolPageFor, List.take_append_of_le_length inside]

section Place

variable {k₀ k₀' k k' : Kernel} {t : Word} {done : List NewPage} {pos : Pos}

-- A page placed before stays where it is while other pages are taken, mapped and written.
theorem PlacedAt.keep {k₁ k₁' : Kernel} {pos₁ : Pos} {page : NewPage} {va : Word}
    (old : PlacedAt k₀ k₀' t pos k k' page va) (extends_ : Extends k k₁ pos pos₁) (root : pos t = some [])
    (outside : pos₁ va = none) (row : k₁.mem va = k.mem va) (row' : k₁'.mem va = k'.mem va) :
    PlacedAt k₀ k₀' t pos₁ k₁ k₁' page va :=
  ⟨extends_.sees root old.sees, extends_.used va old.used, outside, old.free, row.trans old.row, row'.trans old.row'⟩

theorem Placed.step (placed : Placed k₀ k₀' t done pos k k') (wf₀ : KernelWf k₀) (page : NewPage) (k₁ : Kernel)
    (result : placePage t k page = some k₁) :
    ∃ k₁' pos₁, placePage t k' page = some k₁' ∧ Placed k₀ k₀' t (done ++ [page]) pos₁ k₁ k₁' := by
  obtain ⟨process, agree, lock, lacks, before⟩ := placed
  unfold placePage at result ⊢
  rcases memKernelAllocPage_rw k process.wf with oom | ⟨va, k₂, taken, allocated⟩
  · rw [oom] at result
    cases result
  obtain ⟨k₂', taken', alloc⟩ := Lockstep.alloc process.wf lock.same taken
  have allocated' : Allocated k' k₂' va := taken_allocated (process.twin lock.same agree).wf taken'
  have process₂ := allocated.process process
  have agree₂ (p : Word) (r : List Idx) (position : pos p = some r) := alloc.agree p (agree p r position)
  rw [taken] at result
  rw [taken']
  simp only at result ⊢
  split at result
  case h_2 => cases result
  next k₃ mapping =>
  obtain ⟨k₃', pattr, pos₁, a, i, mapping', known, mapped, agree₃, map⟩ :=
    memUserMapPage_lockstep process₂ alloc.same agree₂ page.vaddr (virtToPhys va) page.perm .norm mapping
  obtain ⟨_, _, _, _, _, mapped'⟩ := memUserMapPage_ok k₂' pos t (process₂.twin alloc.same agree₂).wf
    (process₂.twin alloc.same agree₂).layout process.root _ _ _ _ _ mapping'
  rw [mapping']
  obtain rfl := Option.some.inj result
  have process₃ := mapped.process process₂
  have used := mapped.grew.keepsUse va allocated.inUse
  have outside : pos va = none := process.layout.fresh va allocated.wasFree
  have new (p : Word) (inUse : InUse k₂ p) (empty : pos p = none) : pos₁ p = none := by
    cases position : pos₁ p with
    | none => rfl
    | some s => exact absurd (mapped.only p s position empty).1 (not_free_of_marked k₂ p inUse.1)
  have write := Lockstep.update map.wf map.same va used fun row => copyBytes row page.start page.bytes
  have keep (p : Word) (r : List Idx) (position : pos₁ p = some r) :
      (k₃.writePage va (copyBytes (k₃.mem va) page.start page.bytes)).mem p = k₃.mem p :=
    putPage_other _ _ _ _ fun same => by
      rw [same, new va allocated.inUse outside] at position
      cases position
  have process₁ := process₃.twin (sameKernel_putPage k₃ va _ used.2) keep
  have walks (s : List Idx) (short : s.length ≤ 4) := process₃.twin_walk keep s short
  have named : nextPage (done.length + tablesLackedBy k₀.mem t (done.map NewPage.vaddr)) k₀ = va := by
    have same := (lock.taken.alloc (skipPages_wf _ k₀ wf₀) .rw).1
    rw [taken] at same
    exact (congrArg MemRAddr.addr same).symm
  have lacks₂ (s : List Idx) (short : s.length ≤ 3) : node nav k₂.mem t s = none ↔
      node nav k₀.mem t s = none ∧ ∀ v, v ∈ done.map NewPage.vaddr → ¬ s <+: upperIdx v := by
    rw [allocated.walks process s (Nat.le_succ_of_le short)]
    exact lacks s short
  refine ⟨_, pos₁, rfl, process₁, fun p r position => write.agree p (agree₃ p r position), ?_, fun s short => ?_, ?_⟩
  · have whole := lock.trans wf₀ ((alloc.trans process.wf map).trans process.wf write)
    rw [List.length_append, List.length_singleton, List.map_append, List.map_singleton,
      tablesLackedBy_snoc k₀.mem k₂.mem t page.vaddr _ lacks₂]
    rw [show done.length + tablesLackedBy k₀.mem t (done.map NewPage.vaddr) +
      (1 + missingTables k₂.mem t (upperIdx page.vaddr) + 0) = done.length + 1 +
        (tablesLackedBy k₀.mem t (done.map NewPage.vaddr) + missingTables k₂.mem t (upperIdx page.vaddr)) by omega]
      at whole
    exact whole
  · rw [walks s (Nat.le_succ_of_le short), mapped.node_none process₂.layout process.root s short, lacks₂ s short]
    simp only [List.map_append, List.map_singleton, List.mem_append, List.mem_singleton, and_assoc]
    refine and_congr_right fun _ => ⟨fun both v member => ?_, fun all => ⟨fun v member => all v (.inl member),
      all _ (.inr rfl)⟩⟩
    rcases member with old | rfl
    · exact both.1 v old
    · exact both.2
  · intro j page' there
    have extends_ : Extends k (k₃.writePage va (copyBytes (k₃.mem va) page.start page.bytes)) pos pos₁ :=
      ((allocated.extends process.layout).trans (mapped.extends process₂.layout)).trans
        (process₃.overwritten (sameKernel_putPage k₃ va _ used.2) keep)
    rw [List.map_append]
    rcases Nat.lt_or_ge j done.length with old | last
    · rw [List.getElem?_append_left old] at there
      rw [poolPageFor_append _ _ _ _ j (by rw [List.length_map]; exact old.le)]
      have at' := before j page' there
      set p := poolPageFor k₀ t (done.map NewPage.vaddr) j
      have away : p ≠ va := allocated.outside p at'.used
      have used₂ := allocated.keeps p at'.used
      have used₂' := allocated'.keeps p ((lock.same.inUse p).mpr at'.used)
      refine at'.keep extends_ process.root (new p used₂.1 at'.outside) ?_ ?_
      · rw [Kernel.writePage_mem, putPage_other _ _ _ _ away, mapped.keepsPage p used₂.1 at'.outside, used₂.2]
      · rw [Kernel.writePage_mem, putPage_other _ _ _ _ away, mapped'.keepsPage p used₂'.1 at'.outside, used₂'.2]
    · have here : j = done.length := by
        have inside := (List.getElem?_eq_some_iff.mp there).1
        rw [List.length_append, List.length_singleton] at inside
        omega
      subst here
      have same : page' = page := by simpa using there.symm
      subst same
      have name : poolPageFor k₀ t (done.map NewPage.vaddr) done.length = va := by
        rw [poolPageFor, List.take_of_length_le (by simp), named]
      obtain ⟨free₀, row, row'⟩ := lock.free va allocated.wasFree
      rw [poolPageFor_append _ _ _ _ _ (by rw [List.length_map]), name]
      refine ⟨?_, ((sameKernel_putPage k₃ va _ used.2).inUse va).mpr used, new va allocated.inUse outside, free₀, ?_, ?_⟩
      · rw [Sees, walks _ (by simp [mmuGetTableIdx]), mapped.node_here (userLeaf_valid _ _),
          userLeaf_vaddr va _ allocated.isPage (userAttr_low page'.perm .norm pattr known)]
      · rw [Kernel.writePage_mem, putPage_same, mapped.keepsPage va allocated.inUse outside, allocated.content, row]
      · rw [Kernel.writePage_mem, putPage_same, mapped'.keepsPage va allocated'.inUse outside, allocated'.content, row']

theorem Placed.run (wf₀ : KernelWf k₀) (pages : List NewPage) :
    ∀ (done : List NewPage) (pos : Pos) (k k' k₁ : Kernel), Placed k₀ k₀' t done pos k k' →
      placePages t k pages = some k₁ →
        ∃ k₁' pos₁, placePages t k' pages = some k₁' ∧ Placed k₀ k₀' t (done ++ pages) pos₁ k₁ k₁' := by
  induction pages with
  | nil =>
    intro done pos k k' k₁ placed result
    cases result
    exact ⟨k', pos, rfl, by rwa [List.append_nil]⟩
  | cons page pages ih =>
    intro done pos k k' k₁ placed result
    obtain ⟨k₂, first, rest⟩ := Option.bind_eq_some_iff.mp result
    obtain ⟨k₂', pos₂, first', placed₂⟩ := placed.step wf₀ page k₂ first
    obtain ⟨k₁', pos₁, rest', placed₁⟩ := ih _ _ _ _ _ placed₂ rest
    refine ⟨k₁', pos₁, ?_, by rwa [List.append_assoc] at placed₁⟩
    rw [placePages, first', Option.bind_some]
    exact rest'

end Place

section Unseen

variable {released : Word → Prop} {k : Kernel} {pos : Pos} {t : Word}

theorem Recycled.refl (released : Word → Prop) (k : Kernel) : Recycled released k k := ⟨rfl, rfl, rfl, fun _ _ => rfl⟩

theorem Recycled.same {k' : Kernel} (recycled : Recycled released k k') (wf : KernelWf k)
    (freed : ∀ p, released p → Free k p) : SameKernel k k' :=
  ⟨recycled.map, recycled.root, fun p table => recycled.rows p fun gone => wf.busy p table (freed p gone),
    recycled.trace⟩

theorem Recycled.agree {k' : Kernel} (recycled : Recycled released k k') (layout : UserLayout k pos)
    (freed : ∀ p, released p → Free k p) (p : Word) (q : List Idx) (position : pos p = some q) : k'.mem p = k.mem p :=
  recycled.rows p fun gone => not_free_of_marked k p (layout.inUse p q position).1 (freed p gone)

theorem Process.placed (process : Process k pos t) (freed : ∀ p, released p → Free k p) {k' : Kernel}
    (recycled : Recycled released k k') (pages : List NewPage) (k₁ : Kernel)
    (result : placePages t k pages = some k₁) :
    ∃ k₁' pos₁, placePages t k' pages = some k₁' ∧ Placed k k' t pages pos₁ k₁ k₁' := by
  have start : Placed k k' t [] pos k k' :=
    ⟨process, recycled.agree process.layout freed, .start process.wf (recycled.same process.wf freed),
      fun s _ => by simp, fun i page there => by cases there⟩
  exact start.run process.wf pages _ _ _ _ _ result

theorem NewPage.Rest.byte {page : NewPage} {b : Nat} (rest : page.Rest b) (row : Idx → Word) :
    pageByte (copyBytes row page.start page.bytes) b = pageByte row b := by
  rw [pageByte_copyBytes row _ _ b rest.1]
  split_ifs with low
  · have high : page.bytes.length ≤ b - page.start := by
      have outside : ¬ b < page.start + page.bytes.length := fun high => rest.2 ⟨low, high⟩
      omega
    rw [List.getD_eq_getElem?_getD, List.getElem?_eq_none high, Option.getD_none]
  · rfl

-- Outside the bytes of the file, both processes read what the pool page held when the call began.
theorem Placed.reads {k' k₁ k₁' : Kernel} {pages : List NewPage} {pos₁ : Pos}
    (placed : Placed k k' t pages pos₁ k₁ k₁') (i : Nat) (page : NewPage) (there : pages[i]? = some page) (b : Nat)
    (rest : page.Rest b) :
    byteAt k₁ t page.vaddr b = some (pageByte (k.mem (poolPageFor k t (pages.map NewPage.vaddr) i)) b) ∧
      byteAt k₁' t page.vaddr b = some (pageByte (k'.mem (poolPageFor k t (pages.map NewPage.vaddr) i)) b) := by
  obtain ⟨sees, _, _, _, row, row'⟩ := placed.placed i page there
  have sees' : node nav k₁'.mem t (mmuGetTableIdx page.vaddr) = some _ :=
    (placed.process.twin_walk placed.agree _ (by simp [mmuGetTableIdx])).trans sees
  rw [Sees] at sees
  rw [byteAt, byteAt, sees, sees', Option.map_some, Option.map_some, row, row', rest.byte, rest.byte]
  exact ⟨rfl, rfl⟩

/-- A byte that the file does not give is whatever a released page held, so in some run any byte at all. -/
theorem Process.rest_reads (process : Process k pos t) (freed : ∀ p, released p → Free k p) {pages : List NewPage}
    {k₁ : Kernel} (result : placePages t k pages = some k₁) (i : Nat) (page : NewPage) (there : pages[i]? = some page)
    (b : Nat) (rest : page.Rest b) (gone : released (poolPageFor k t (pages.map NewPage.vaddr) i)) (byte : BitVec 8) :
    ∃ k' k₁', Recycled released k k' ∧ placePages t k' pages = some k₁' ∧
      byteAt k₁' t page.vaddr b = some byte := by
  set p := poolPageFor k t (pages.map NewPage.vaddr) i with named
  have recycled : Recycled released k (k.writePage p (copyBytes (k.mem p) b [byte])) :=
    ⟨rfl, rfl, rfl, fun p' other => putPage_other _ _ _ _ fun same => other (same ▸ gone)⟩
  obtain ⟨k₁', _, result', placed⟩ := process.placed freed recycled pages k₁ result
  refine ⟨_, k₁', recycled, result', ?_⟩
  rw [(placed.reads i page there b rest).2, ← named, Kernel.writePage_mem, putPage_same,
    pageByte_copyBytes _ _ _ b rest.1, if_pos le_rfl, Nat.sub_self, List.getD_cons_zero]

/-- A call that places `pages` shows nothing of the released pages exactly when it takes none of them, apart from pages
that the file fills. -/
theorem unseen_iff (process : Process k pos t) (freed : ∀ p, released p → Free k p) (pages : List NewPage)
    (call : Kernel → Kernel → Prop)
    (does : ∀ k', Recycled released k k' → ∀ k₁, call k' k₁ ↔ placePages t k' pages = some k₁) (k₁ : Kernel)
    (given : call k k₁) :
    Unseen released k t pages call ↔ ∀ i page, pages[i]? = some page → (∃ b, page.Rest b) →
      ¬ released (poolPageFor k t (pages.map NewPage.vaddr) i) := by
  constructor
  · rintro unseen i page there ⟨b, rest⟩ gone
    have result := (does k (.refl released k) k₁).mp given
    obtain ⟨_, _, _, placed⟩ := process.placed freed (.refl released k) pages k₁ result
    have mine := (placed.reads i page there b rest).1
    set old := pageByte (k.mem (poolPageFor k t (pages.map NewPage.vaddr) i)) b
    -- The other run finds this byte inverted in the page.
    obtain ⟨k', k₂', recycled, result', theirs⟩ := process.rest_reads freed result i page there b rest gone (~~~ old)
    obtain ⟨k₁', given', reads⟩ := unseen k' k₁ recycled given
    obtain rfl : k₁' = k₂' := Option.some.inj (((does k' recycled k₁').mp given').symm.trans result')
    have equal := reads page (List.mem_of_getElem? there) b rest
    rw [mine, theirs] at equal
    have impossible : ∀ x : BitVec 8, ~~~ x ≠ x := by decide
    exact impossible _ (Option.some.inj equal)
  · intro kept k' k₁ recycled given
    have result := (does k (.refl released k) k₁).mp given
    obtain ⟨k₁', pos₁, result', placed⟩ := process.placed freed recycled pages k₁ result
    refine ⟨k₁', (does k' recycled k₁').mpr result', fun page member b rest => ?_⟩
    obtain ⟨i, there⟩ := List.getElem?_of_mem member
    obtain ⟨mine, theirs⟩ := placed.reads i page there b rest
    rw [mine, theirs, recycled.rows _ (kept i page there ⟨b, rest⟩)]

end Unseen

theorem writePage_self (k : Kernel) (p : Word) : k.writePage p (k.mem p) = k := by
  refine congrArg (fun mem => { k with mem := mem }) (funext fun p' => ?_)
  by_cases here : p' = p
  · rw [here, putPage_same]
  · exact putPage_other _ _ _ _ here

theorem placePages_append (t : Word) (pages more : List NewPage) (k : Kernel) :
    placePages t k (pages ++ more) = (placePages t k pages).bind fun k => placePages t k more := by
  induction pages generalizing k with
  | nil => rfl
  | cons page pages ih =>
    rw [List.cons_append, placePages, placePages, Option.bind_assoc]
    exact congrArg _ (funext ih)

def rangePages (vaddr : Word) (perm : MemPerm) (count : Nat) : List NewPage :=
  (List.range count).map fun j => .anonymous (pageAt vaddr j) perm

theorem anonymousStep_places (k k₁ : Kernel) (t v : Word) (perm : MemPerm) :
    anonymousStep k t v perm = .ok k₁ ↔ placePage t k (.anonymous v perm) = some k₁ := by
  unfold anonymousStep placePage NewPage.anonymous
  rcases memKernelAllocPage k .rw with ⟨⟨va, err⟩, k₂⟩
  cases err <;> simp only [reduceCtorEq]
  rcases memUserMapPage k₂ t v (virtToPhys va) perm .norm with halt | ⟨err, k₃⟩
  · simp
  · cases err <;> simp [copyBytes_nil, writePage_self]

theorem anonymousStep_stops (k : Kernel) (t v : Word) (perm : MemPerm) (early : Except Halt (Word × Kernel))
    (stops : anonymousStep k t v perm = .error early) (ret : Word) (k₁ : Kernel) (returns : early = .ok (ret, k₁)) :
    ret = enomem := by
  subst returns
  unfold anonymousStep at stops
  rcases alloc : memKernelAllocPage k .rw with ⟨⟨va, err⟩, k₂⟩
  rw [alloc] at stops
  cases err
  case ok =>
    rcases mapped : memUserMapPage k₂ t v (virtToPhys va) perm .norm with halt | ⟨err, k₃⟩
    · simp [mapped] at stops
    · cases err <;> simp [mapped] at stops <;> exact stops.1.symm
  case memOom => exact (Prod.mk.inj (Except.ok.inj (Except.error.inj stops))).1.symm
  all_goals cases stops

-- A loop that places a page in each round, or stops in a way that is not the outcome `a`.
theorem loop_places {A : Type} (t : Word) (page : Nat → NewPage)
    (step : Kernel → Nat → Except (Except Halt A) Kernel) (loop : Kernel → Nat → Nat → Except Halt A) (success : Kernel → A)
    (zero : ∀ k i, loop k i 0 = .ok (success k))
    (early : ∀ k i count result, step k i = .error result → loop k i (count + 1) = result)
    (next : ∀ k i count k₁, step k i = .ok k₁ → loop k i (count + 1) = loop k₁ (i + 1) count)
    (places : ∀ k i k₁, step k i = .ok k₁ ↔ placePage t k (page i) = some k₁) (a : A)
    (stops : ∀ k i early, step k i = .error early → early ≠ .ok a) (count : Nat) :
    ∀ k i, loop k i count = .ok a ↔
      ∃ k₁, a = success k₁ ∧ placePages t k ((List.range' i count).map page) = some k₁ := by
  induction count with
  | zero =>
    intro k i
    simp [zero, placePages, eq_comm]
  | succ count ih =>
    intro k i
    rw [List.range'_succ, List.map_cons, placePages]
    cases result : step k i with
    | error stopped =>
      have never : placePage t k (page i) = none := by
        cases placed : placePage t k (page i) with
        | none => rfl
        | some k₂ =>
          rw [(places k i k₂).mpr placed] at result
          cases result
      rw [early k i count stopped result, never, Option.bind_none]
      refine ⟨fun returns => absurd returns (stops k i stopped result), ?_⟩
      rintro ⟨_, _, impossible⟩
      cases impossible
    | ok k₂ =>
      rw [next k i count k₂ result, (places k i k₂).mp result, Option.bind_some]
      exact ih k₂ (i + 1)

theorem anonymousLoop_places (k k₁ : Kernel) (t vaddr : Word) (perm : MemPerm) (count : Nat) (ret : Word)
    (good : ret ≠ enomem) : anonymousLoop t vaddr perm k 0 count = .ok (ret, k₁) ↔
      ret = vaddr ∧ placePages t k (rangePages vaddr perm count) = some k₁ := by
  rw [loop_places t (fun j => .anonymous (pageAt vaddr j) perm) (fun k i => anonymousStep k t (pageAt vaddr i) perm)
    (anonymousLoop t vaddr perm) (fun k => (vaddr, k)) (fun _ _ => rfl)
    (fun k i count early step => by rw [anonymousLoop, step]) (fun k i count k₁ step => by rw [anonymousLoop, step])
    (fun k i k₁ => anonymousStep_places k k₁ t _ perm) (ret, k₁)
    (fun k i early stops returns => good (anonymousStep_stops k t _ perm early stops ret k₁ returns)) count k 0]
  simp only [Prod.mk.injEq, rangePages, List.range_eq_range']
  constructor
  · rintro ⟨_, ⟨rfl, rfl⟩, placed⟩
    exact ⟨rfl, placed⟩
  · rintro ⟨rfl, placed⟩
    exact ⟨k₁, ⟨rfl, rfl⟩, placed⟩

theorem bufferStep_places (k k₁ : Kernel) (t v : Word) :
    bufferStep k t v = .ok k₁ ↔ placePage t k (.anonymous v .rw) = some k₁ := by
  unfold bufferStep placePage NewPage.anonymous
  rcases memKernelAllocPage k .rw with ⟨⟨va, err⟩, k₂⟩
  cases err <;> simp only [reduceCtorEq]
  rcases memUserMapPage k₂ t v (virtToPhys va) .rw .norm with halt | ⟨err, k₃⟩
  · simp
  · cases err <;> simp [copyBytes_nil, writePage_self]

theorem bufferStep_stops (k : Kernel) (t v : Word) (early : Except Halt (MemRAddr × Kernel))
    (stops : bufferStep k t v = .error early) (addr : Word) (err : KernErr) (k₁ : Kernel)
    (returns : early = .ok (⟨addr, err⟩, k₁)) : addr = 0 := by
  subst returns
  unfold bufferStep at stops
  rcases alloc : memKernelAllocPage k .rw with ⟨⟨va, taken⟩, k₂⟩
  rw [alloc] at stops
  cases taken
  case ok =>
    rcases mapped : memUserMapPage k₂ t v (virtToPhys va) .rw .norm with halt | ⟨result, k₃⟩
    · simp [mapped] at stops
    · cases result <;> simp [mapped] at stops <;> exact stops.1.1.symm
  all_goals exact (MemRAddr.mk.inj (Prod.mk.inj (Except.ok.inj (Except.error.inj stops))).1).1.symm

theorem bufferLoop_places (k k₁ : Kernel) (t vaddr : Word) (count : Nat) (addr : Word) (good : addr ≠ 0) :
    bufferLoop t vaddr k 0 count = .ok (⟨addr, .ok⟩, k₁) ↔
      addr = vaddr ∧ placePages t k (rangePages vaddr .rw count) = some k₁ := by
  rw [loop_places t (fun j => .anonymous (pageAt vaddr j) .rw) (fun k i => bufferStep k t (pageAt vaddr i))
    (bufferLoop t vaddr) (fun k => (⟨vaddr, .ok⟩, k)) (fun _ _ => rfl)
    (fun k i count early step => by rw [bufferLoop, step]) (fun k i count k₁ step => by rw [bufferLoop, step])
    (fun k i k₁ => bufferStep_places k k₁ t _) (⟨addr, .ok⟩, k₁)
    (fun k i early stops returns => good (bufferStep_stops k t _ early stops addr .ok k₁ returns)) count k 0]
  simp only [Prod.mk.injEq, MemRAddr.mk.injEq, and_true, rangePages, List.range_eq_range']
  constructor
  · rintro ⟨_, ⟨rfl, rfl⟩, placed⟩
    exact ⟨rfl, placed⟩
  · rintro ⟨rfl, placed⟩
    exact ⟨k₁, ⟨rfl, rfl⟩, placed⟩

theorem findEmpty_congr (m m' : Mem) (t : Word) (same : ∀ v, pageBusy m' t v = pageBusy m t v) (count fuel : Nat) :
    ∀ addr, memUserFindEmpty m' t count fuel addr = memUserFindEmpty m t count fuel addr := by
  have busy (addr : Word) (n : Nat) : ∀ p, firstBusy m' t addr p n = firstBusy m t addr p n := by
    induction n with
    | zero => exact fun _ => rfl
    | succ n ih =>
      intro p
      rw [firstBusy, firstBusy, same, ih]
  induction fuel with
  | zero => exact fun _ => rfl
  | succ fuel ih =>
    intro addr
    rw [memUserFindEmpty, memUserFindEmpty, busy]
    cases firstBusy m t addr 0 count with
    | none => rfl
    | some p => exact ih _

theorem Process.twin_search {k k' : Kernel} {pos : Pos} {t : Word} (process : Process k pos t)
    (same : SameKernel k k') (agree : ∀ p r, pos p = some r → k'.mem p = k.mem p) (count fuel : Nat) (addr : Word) :
    memUserFindEmpty k'.mem t count fuel addr = memUserFindEmpty k.mem t count fuel addr := by
  have twin := process.twin same agree
  refine findEmpty_congr k.mem k'.mem t (fun v => ?_) count fuel addr
  rw [pageBusy_eq k pos process.layout t process.root, pageBusy_eq k' pos twin.layout t twin.root,
    process.twin_walk agree _ (by simp [mmuGetTableIdx])]

section Calls

variable {k : Kernel} {t addr len ret : Word} {prot : Int} {perm : MemPerm} {fuel : Nat}

theorem sysMmap_found {k₁ : Kernel} (known : protPerm prot = some perm)
    (given : sysMmap fuel k t addr len prot mapAnonymousFlag = some (.ok (ret, k₁)))
    (good : ret ∉ [einval, enomem, enotsup]) : len ≠ 0 ∧ ret ≠ 0 ∧
      memUserFindEmpty k.mem t (memSizeToPages len).toNat fuel (anonymousHint addr) = some ret := by
  simp only [List.mem_cons, List.not_mem_nil, or_false, not_or] at good
  by_cases empty : len = 0
  · simp only [sysMmap, empty, if_true, Option.some.injEq, Except.ok.injEq, Prod.mk.injEq] at given
    exact absurd given.1.symm good.1
  · simp only [sysMmap, empty, if_false, known, if_true, mapAnonymous] at given
    cases found : memUserFindEmpty k.mem t (memSizeToPages len).toNat fuel (anonymousHint addr) with
    | none =>
      rw [found] at given
      cases given
    | some vaddr =>
      simp only [found] at given
      split_ifs at given with zero
      · simp only [Option.some.injEq, Except.ok.injEq, Prod.mk.injEq] at given
        exact absurd given.1.symm good.2.1
      · obtain ⟨rfl, _⟩ := (anonymousLoop_places k k₁ t vaddr perm _ ret good.2.1).mp (Option.some.inj given)
        exact ⟨empty, zero, rfl⟩

theorem sysMmap_places (known : protPerm prot = some perm) (some_ : len ≠ 0) (mapped : ret ≠ 0) (good : ret ≠ enomem)
    (found : memUserFindEmpty k.mem t (memSizeToPages len).toNat fuel (anonymousHint addr) = some ret) (k₁ : Kernel) :
    sysMmap fuel k t addr len prot mapAnonymousFlag = some (.ok (ret, k₁)) ↔
      placePages t k (rangePages ret perm (memSizeToPages len).toNat) = some k₁ := by
  simp only [sysMmap, some_, if_false, known, if_true, mapAnonymous, found, mapped, Option.some.injEq]
  rw [anonymousLoop_places k k₁ t ret perm _ ret good]
  exact and_iff_right rfl

theorem bufferAlloc_found {s : Sys} {k₁ : Kernel} {size : Word} (given : bufferAlloc s size = .ok (⟨addr, .ok⟩, k₁))
    (good : addr ≠ 0) : memUserFindEmpty s.kernel.mem (s.table s.current) (memSizeToPages size).toNat findEmptyRounds
      0x200000 = some addr := by
  cases found : memUserFindEmpty s.kernel.mem (s.table s.current) (memSizeToPages size).toNat findEmptyRounds 0x200000 with
  | none =>
    simp only [bufferAlloc, found] at given
    cases given
  | some vaddr =>
    simp only [bufferAlloc, found] at given
    split_ifs at given with zero
    · simp at given
    · obtain ⟨rfl, _⟩ := (bufferLoop_places s.kernel k₁ _ vaddr _ addr good).mp given
      rfl

theorem bufferAlloc_places {s : Sys} {size : Word} (good : addr ≠ 0) (found : memUserFindEmpty s.kernel.mem
      (s.table s.current) (memSizeToPages size).toNat findEmptyRounds 0x200000 = some addr) (k₁ : Kernel) :
    bufferAlloc s size = .ok (⟨addr, .ok⟩, k₁) ↔
      placePages (s.table s.current) s.kernel (rangePages addr .rw (memSizeToPages size).toNat) = some k₁ := by
  simp only [bufferAlloc, found, good, if_false]
  rw [bufferLoop_places s.kernel k₁ _ addr _ addr good]
  exact and_iff_right rfl

end Calls

-- The pages of an image, in the order in which they are taken. `none` where the file is refused, a
-- copy leaves its page or the fuel runs out.

def segmentPages (file : ElfFile) (phdr : Elf64Phdr) (perm : MemPerm) : Nat → Word → Option (List NewPage)
  | 0, _ => none
  | fuel + 1, vaddr =>
    if vaddr < phdr.vaddrEnd then
      if phdr.pageOffset vaddr + phdr.dataSize vaddr ≤ pageSize.toNat then
        (segmentPages file phdr perm fuel (vaddr + pageSize)).map fun pages =>
          ⟨vaddr, perm, phdr.pageOffset vaddr, phdr.fileBytes file vaddr⟩ :: pages
      else none
    else some []

def phdrPages (fuel : Nat) (file : ElfFile) : Nat → Nat → Option (List NewPage)
  | _, 0 => some []
  | i, count + 1 =>
    if (file.phdr i).pType ≠ ptLoad then phdrPages fuel file (i + 1) count
    else
      match elfPerm (file.phdr i).pFlags with
      | none => none
      | some perm =>
        (segmentPages file (file.phdr i) perm fuel ((file.phdr i).pVaddr &&& ~~~(pageSize - 1))).bind fun pages =>
          (phdrPages fuel file (i + 1) count).map (pages ++ ·)

def imagePages (fuel : Nat) (file : ElfFile) : Option (List NewPage) :=
  (phdrPages fuel file 0 file.ePhnum.toNat).map (.anonymous file.stackAddr .rw :: ·)

theorem imagePage_places (k k₁ : Kernel) (t : Word) (page : NewPage) : placePage t k page = some k₁ ↔
    ∃ va k₂, imagePage k t page.vaddr page.perm = .ok (va, k₂) ∧
      k₁ = k₂.writePage va (copyBytes (k₂.mem va) page.start page.bytes) := by
  unfold placePage imagePage
  rcases memKernelAllocPage k .rw with ⟨⟨va, err⟩, k₂⟩
  cases err <;> simp only [reduceCtorEq, false_and, exists_false]
  rcases memUserMapPage k₂ t page.vaddr (virtToPhys va) page.perm .norm with halt | ⟨err, k₃⟩
  · simp
  · cases err <;> simp [eq_comm]

theorem imagePage_stops (k : Kernel) (t v : Word) (perm : MemPerm) (early : Except Halt (ElfRAddr × Kernel))
    (stops : imagePage k t v perm = .error early) (addr : Word) (k₁ : Kernel) : early ≠ .ok (⟨addr, .ok⟩, k₁) := by
  rintro rfl
  unfold imagePage at stops
  rcases alloc : memKernelAllocPage k .rw with ⟨⟨va, taken⟩, k₂⟩
  rw [alloc] at stops
  cases taken
  case ok =>
    rcases mapped : memUserMapPage k₂ t v (virtToPhys va) perm .norm with halt | ⟨result, k₃⟩
    · simp [mapped] at stops
    · cases result <;> simp [mapped] at stops
  all_goals simp at stops

theorem segmentStep_places (file : ElfFile) (phdr : Elf64Phdr) (perm : MemPerm) (t : Word) (k k₁ : Kernel) (v : Word) :
    segmentStep file phdr perm t k v = .ok k₁ ↔ phdr.pageOffset v + phdr.dataSize v ≤ pageSize.toNat ∧
      placePage t k ⟨v, perm, phdr.pageOffset v, phdr.fileBytes file v⟩ = some k₁ := by
  rw [imagePage_places, segmentStep]
  cases made : imagePage k t v perm with
  | error early => simp
  | ok result =>
    obtain ⟨va, k₂⟩ := result
    by_cases fits : phdr.pageOffset v + phdr.dataSize v ≤ pageSize.toNat <;> simp [fits, eq_comm]

theorem segmentStep_stops (file : ElfFile) (phdr : Elf64Phdr) (perm : MemPerm) (t : Word) (k : Kernel) (v : Word)
    (early : Except Halt (ElfRAddr × Kernel)) (stops : segmentStep file phdr perm t k v = .error early) (addr : Word)
    (k₁ : Kernel) : early ≠ .ok (⟨addr, .ok⟩, k₁) := by
  unfold segmentStep at stops
  cases made : imagePage k t v perm with
  | error early' =>
    rw [made] at stops
    cases stops
    exact imagePage_stops k t v perm early made addr k₁
  | ok result =>
    simp only [made] at stops
    split_ifs at stops
    cases stops
    exact nofun


theorem segmentLoop_places (file : ElfFile) (phdr : Elf64Phdr) (perm : MemPerm) (t : Word) (k₁ : Kernel) (fuel : Nat) :
    ∀ k v, segmentLoop file phdr perm t fuel k v = some (.ok k₁) ↔
      ∃ pages, segmentPages file phdr perm fuel v = some pages ∧ placePages t k pages = some k₁ := by
  induction fuel with
  | zero =>
    intro k v
    simp [segmentLoop, segmentPages]
  | succ fuel ih =>
    intro k v
    rw [segmentLoop, segmentPages]
    by_cases more : v < phdr.vaddrEnd
    · rw [if_pos more, if_pos more]
      have places := segmentStep_places file phdr perm t k
      by_cases fits : phdr.pageOffset v + phdr.dataSize v ≤ pageSize.toNat
      · rw [if_pos fits]
        cases step : segmentStep file phdr perm t k v with
        | error early =>
          have never : placePage t k ⟨v, perm, phdr.pageOffset v, phdr.fileBytes file v⟩ = none :=
            Option.eq_none_iff_forall_ne_some.mpr fun k₂ placed => by
              rw [(places k₂ v).mpr ⟨fits, placed⟩] at step
              cases step
          simp [placePages, never]
        | ok k₂ =>
          have placed := ((places k₂ v).mp step).2
          simp only [ih, Option.map_eq_some_iff]
          constructor
          · rintro ⟨pages, listed, rest⟩
            exact ⟨_, ⟨pages, listed, rfl⟩, by rw [placePages, placed]; exact rest⟩
          · rintro ⟨_, ⟨pages, listed, rfl⟩, rest⟩
            rw [placePages, placed] at rest
            exact ⟨pages, listed, rest⟩
      · rw [if_neg fits]
        cases step : segmentStep file phdr perm t k v with
        | error early => simp
        | ok k₂ => exact absurd ((places k₂ v).mp step).1 fits
    · simp [more, placePages]

theorem segmentLoop_stops (file : ElfFile) (phdr : Elf64Phdr) (perm : MemPerm) (t : Word) (fuel : Nat)
    (early : Except Halt (ElfRAddr × Kernel)) (addr : Word) (k₁ : Kernel) :
    ∀ k v, segmentLoop file phdr perm t fuel k v = some (.error early) → early ≠ .ok (⟨addr, .ok⟩, k₁) := by
  induction fuel with
  | zero => exact fun _ _ stops => by cases stops
  | succ fuel ih =>
    intro k v stops
    rw [segmentLoop] at stops
    split_ifs at stops with more
    · cases step : segmentStep file phdr perm t k v with
      | error early' =>
        rw [step] at stops
        cases stops
        exact segmentStep_stops file phdr perm t k v early step addr k₁
      | ok k₂ =>
        rw [step] at stops
        exact ih k₂ _ stops
    · cases stops

theorem phdrLoop_places (fuel : Nat) (file : ElfFile) (t : Word) (k₁ : Kernel) (count : Nat) :
    ∀ k i, phdrLoop fuel file t k i count = some (.ok k₁) ↔
      ∃ pages, phdrPages fuel file i count = some pages ∧ placePages t k pages = some k₁ := by
  induction count with
  | zero =>
    intro k i
    simp [phdrLoop, phdrPages, placePages]
  | succ count ih =>
    intro k i
    rw [phdrLoop, phdrPages]
    by_cases skip : (file.phdr i).pType ≠ ptLoad
    · simp only [skip, if_true, ne_eq, not_false_eq_true]
      exact ih k (i + 1)
    · simp only [skip, if_false]
      cases elfPerm (file.phdr i).pFlags with
      | none => simp
      | some perm =>
        have places := segmentLoop_places file (file.phdr i) perm t
        simp only [Option.bind_eq_some_iff, Option.map_eq_some_iff]
        constructor
        · intro done
          rcases segment : segmentLoop file (file.phdr i) perm t fuel k ((file.phdr i).pVaddr &&& ~~~(pageSize - 1)) with
            _ | early | k₂ <;> simp only [segment] at done
          · cases done
          · cases done
          · obtain ⟨pages, listed, placed⟩ := (places k₂ fuel k _).mp segment
            obtain ⟨more, listed', placed'⟩ := (ih k₂ (i + 1)).mp done
            exact ⟨_, ⟨pages, listed, more, listed', rfl⟩, by rw [placePages_append, placed]; exact placed'⟩
        · rintro ⟨_, ⟨pages, listed, more, listed', rfl⟩, placed⟩
          rw [placePages_append] at placed
          obtain ⟨k₂, first, rest⟩ := Option.bind_eq_some_iff.mp placed
          simp only [(places k₂ fuel k _).mpr ⟨pages, listed, first⟩]
          exact (ih k₂ (i + 1)).mpr ⟨more, listed', rest⟩

theorem phdrLoop_stops (fuel : Nat) (file : ElfFile) (t : Word) (early : Except Halt (ElfRAddr × Kernel)) (addr : Word)
    (k₁ : Kernel) (count : Nat) :
    ∀ k i, phdrLoop fuel file t k i count = some (.error early) → early ≠ .ok (⟨addr, .ok⟩, k₁) := by
  induction count with
  | zero => exact fun _ _ stops => by cases stops
  | succ count ih =>
    intro k i stops
    rw [phdrLoop] at stops
    by_cases skip : (file.phdr i).pType ≠ ptLoad
    · simp only [skip, if_true, ne_eq, not_false_eq_true] at stops
      exact ih k (i + 1) stops
    · simp only [skip, if_false] at stops
      cases known : elfPerm (file.phdr i).pFlags with
      | none =>
        rw [known] at stops
        cases stops
        exact nofun
      | some perm =>
        simp only [known] at stops
        rcases segment : segmentLoop file (file.phdr i) perm t fuel k ((file.phdr i).pVaddr &&& ~~~(pageSize - 1)) with
          _ | early' | k₂ <;> simp only [segment] at stops
        · cases stops
        · cases stops
          exact segmentLoop_stops file _ perm t fuel early addr k₁ k _ segment
        · exact ih k₂ (i + 1) stops

theorem elfCreateProcImage_places (fuel : Nat) (file : ElfFile) (k k₁ : Kernel) (t addr : Word) :
    elfCreateProcImage fuel file k t = some (.ok (⟨addr, .ok⟩, k₁)) ↔ addr = file.stackAddr ∧
      ∃ pages, imagePages fuel file = some pages ∧ placePages t k pages = some k₁ := by
  have places := imagePage_places k
  rw [elfCreateProcImage]
  cases stack : imagePage k t file.stackAddr .rw with
  | error early =>
    have never (k₂ : Kernel) : placePage t k (.anonymous file.stackAddr .rw) ≠ some k₂ := fun placed => by
      obtain ⟨va, k₃, made, _⟩ := (places k₂ t _).mp placed
      rw [show imagePage k t file.stackAddr .rw = .ok (va, k₃) from made] at stack
      cases stack
    have stops := imagePage_stops k t file.stackAddr .rw early stack addr k₁
    simp only [Option.some.injEq, stops, false_iff, imagePages, Option.map_eq_some_iff]
    rintro ⟨_, _, ⟨pages, _, rfl⟩, placed⟩
    obtain ⟨k₂, first, _⟩ := Option.bind_eq_some_iff.mp placed
    exact never k₂ first
  | ok made =>
    obtain ⟨va, k₂⟩ := made
    have first : placePage t k (.anonymous file.stackAddr .rw) = some k₂ :=
      (places k₂ t _).mpr ⟨va, k₂, stack, by rw [NewPage.anonymous, copyBytes_nil, writePage_self]⟩
    have whole : (∃ pages, imagePages fuel file = some pages ∧ placePages t k pages = some k₁) ↔
        phdrLoop fuel file t k₂ 0 file.ePhnum.toNat = some (.ok k₁) := by
      rw [phdrLoop_places fuel file t k₁ _ k₂ 0]
      simp only [imagePages, Option.map_eq_some_iff]
      constructor
      · rintro ⟨_, ⟨pages, listed, rfl⟩, placed⟩
        rw [placePages, first] at placed
        exact ⟨pages, listed, placed⟩
      · rintro ⟨pages, listed, placed⟩
        exact ⟨_, ⟨pages, listed, rfl⟩, by rw [placePages, first]; exact placed⟩
    rw [whole]
    rcases loop : phdrLoop fuel file t k₂ 0 file.ePhnum.toNat with _ | early | k₃ <;> simp only [loop]
    · simp
    · have stops := phdrLoop_stops fuel file t early addr k₁ _ k₂ 0 loop
      simp [stops]
    · simp [eq_comm]

/-- sys_mmap, _buffer_alloc and elf_create_proc_image show the process nothing of what released pages held exactly when
the pool pages that they take for its memory are not among these, apart from pages that a file's bytes fill. -/
theorem recycled_pages (k : Kernel) (pos : Pos) (t : Word) (process : Process k pos t) (released : Word → Prop)
    (freed : ∀ p, released p → Free k p) :
    (∀ fuel addr len prot perm ret k₁, protPerm prot = some perm → ret ∉ [einval, enomem, enotsup] →
      sysMmap fuel k t addr len prot mapAnonymousFlag = some (.ok (ret, k₁)) →
      (Unseen released k t (rangePages ret perm (memSizeToPages len).toNat)
          (fun k k₁ => sysMmap fuel k t addr len prot mapAnonymousFlag = some (.ok (ret, k₁))) ↔
        ∀ i, i < (memSizeToPages len).toNat →
          ¬ released (poolPageFor k t ((List.range (memSizeToPages len).toNat).map (pageAt ret)) i))) ∧
    (∀ (s : Sys) size addr k₁, s.kernel = k → s.table s.current = t → addr ≠ 0 →
      bufferAlloc s size = .ok (⟨addr, .ok⟩, k₁) →
      (Unseen released k t (rangePages addr .rw (memSizeToPages size).toNat)
          (fun k k₁ => bufferAlloc (s.setKernel k) size = .ok (⟨addr, .ok⟩, k₁)) ↔
        ∀ i, i < (memSizeToPages size).toNat →
          ¬ released (poolPageFor k t ((List.range (memSizeToPages size).toNat).map (pageAt addr)) i))) ∧
    ∀ fuel file addr k₁, elfCreateProcImage fuel file k t = some (.ok (⟨addr, .ok⟩, k₁)) →
      ∃ pages, imagePages fuel file = some pages ∧
        (Unseen released k t pages (fun k k₁ => elfCreateProcImage fuel file k t = some (.ok (⟨addr, .ok⟩, k₁))) ↔
          ∀ i page, pages[i]? = some page → (∃ b, page.Rest b) →
            ¬ released (poolPageFor k t (pages.map NewPage.vaddr) i)) := by
  have search (k' : Kernel) (recycled : Recycled released k k') (count fuel : Nat) (addr : Word) :=
    process.twin_search (recycled.same process.wf freed) (recycled.agree process.layout freed) count fuel addr
  have range (addr : Word) (perm : MemPerm) (count : Nat) :
      (∀ i page, (rangePages addr perm count)[i]? = some page → (∃ b, page.Rest b) →
        ¬ released (poolPageFor k t ((rangePages addr perm count).map NewPage.vaddr) i)) ↔
      ∀ i, i < count → ¬ released (poolPageFor k t ((List.range count).map (pageAt addr)) i) := by
    have vaddrs : (rangePages addr perm count).map NewPage.vaddr = (List.range count).map (pageAt addr) := by
      rw [rangePages, List.map_map]
      rfl
    rw [vaddrs]
    constructor
    · intro kept i inside
      refine kept i (.anonymous (pageAt addr i) perm) ?_ ⟨0, by decide, fun both => Nat.not_lt_zero _ both.2⟩
      rw [rangePages, List.getElem?_map, List.getElem?_range inside, Option.map_some]
    · intro kept i page there _
      have inside := (List.getElem?_eq_some_iff.mp there).1
      rw [rangePages, List.length_map, List.length_range] at inside
      exact kept i inside
  refine ⟨fun fuel addr len prot perm ret k₁ known good given => ?_, fun s size addr k₁ here table good given => ?_,
    fun fuel file addr k₁ given => ?_⟩
  · obtain ⟨some_, mapped, found⟩ := sysMmap_found known given good
    have memory : ret ≠ enomem := fun same => good (by simp [same])
    rw [← range ret perm]
    refine unseen_iff process freed _ _ (fun k' recycled k₂ => ?_) k₁ given
    exact sysMmap_places known some_ mapped memory ((search k' recycled _ _ _).trans found) k₂
  · subst here table
    have found := bufferAlloc_found given good
    rw [← range addr .rw]
    refine unseen_iff process freed _ _ (fun k' recycled k₂ => ?_) k₁ given
    exact bufferAlloc_places (s := s.setKernel k') good ((search k' recycled _ _ _).trans found) k₂
  · obtain ⟨rfl, pages, listed, _⟩ := (elfCreateProcImage_places fuel file k k₁ t addr).mp given
    refine ⟨pages, listed, unseen_iff process freed pages _ (fun k' _ k₂ => ?_) k₁ given⟩
    rw [elfCreateProcImage_places fuel file k' k₂ t]
    simp [listed]

-- One process with pool page 8 at 0x200000, and one with tables but no page.
def neighbours (word : Word) : List Cell :=
  ⟨8, 0, word⟩ :: ⟨9, 0, tableEntry (poolVa 10)⟩ :: ⟨10, 0, tableEntry (poolVa 11)⟩ ::
    ⟨11, 1, tableEntry (poolVa 12)⟩ :: onePage 0

def neighbourTables : Tables := [(9, []), (10, [0]), (11, [0, 0]), (12, [0, 0, 1])]

theorem returns_of_any {α ε : Type} (result : Option (Except ε α)) (check : α → Bool)
    (passed : (result.bind Except.toOption).any check = true) : ∃ a, result = some (.ok a) ∧ check a = true := by
  rcases result with _ | _ | a
  · cases passed
  · cases passed
  · exact ⟨a, rfl, passed⟩

theorem recycled_pages_neighbour : ∃ k₁, sysMmap 1 (machine (neighbours 42) [8]) (poolVa 9) 0 0x1000 3 mapAnonymousFlag =
      some (.ok (0x200000, k₁)) ∧
    ¬ Unseen (fun p => p = poolVa 8) (machine (neighbours 42) [8]) (poolVa 9)
      (rangePages 0x200000 .rw (memSizeToPages 0x1000).toNat)
      (fun k k₁ => sysMmap 1 k (poolVa 9) 0 0x1000 3 mapAnonymousFlag = some (.ok (0x200000, k₁))) := by
  have fits : Fits (neighbours 42) [8] neighbourTables := by decide +kernel
  have process := machine_process _ _ _ fits (poolVa 9) (by decide +kernel)
  have freed (p : Word) (gone : p = poolVa 8) : Free (machine (neighbours 42) [8]) p :=
    (machine_free _ _ fits.1 p).mpr ⟨8, by decide, gone⟩
  obtain ⟨⟨ret, k₁⟩, given, check⟩ := returns_of_any
    (sysMmap 1 (machine (neighbours 42) [8]) (poolVa 9) 0 0x1000 3 mapAnonymousFlag)
    (fun r => r.1 == 0x200000) (by decide +kernel)
  obtain rfl : ret = 0x200000 := beq_iff_eq.mp check
  refine ⟨k₁, given, fun unseen => ?_⟩
  have kept := ((recycled_pages _ _ _ process (fun p => p = poolVa 8) freed).1 1 0 0x1000 3 .rw 0x200000 k₁ (by decide)
    (by decide) given).mp unseen
  exact kept 0 (by decide) (by decide +kernel)

/-- The next process reads what the last one left in its page. -/
theorem released_word_read : ∃ k k' k₁ k₁' k₂ k₂' : Kernel,
    (k'.memoryMap = k.memoryMap ∧ k'.kernelTable = k.kernelTable ∧ ∀ p, p ≠ poolVa 8 → k'.mem p = k.mem p) ∧
    Sees k (poolVa 4) 0x200000 (poolVa 8) ∧
    (sysMunmap k (poolVa 4) 0x200000 0x1000 = .ok (0, k₁) ∧ sysMunmap k' (poolVa 4) 0x200000 0x1000 = .ok (0, k₁')) ∧
    (sysMmap 1 k₁ (poolVa 9) 0 0x1000 3 mapAnonymousFlag = some (.ok (0x200000, k₂)) ∧
      sysMmap 1 k₁' (poolVa 9) 0 0x1000 3 mapAnonymousFlag = some (.ok (0x200000, k₂'))) ∧
    byteAt k₂ (poolVa 9) 0x200000 0 ≠ byteAt k₂' (poolVa 9) 0x200000 0 := by
  have reads (word : Word) (byte : BitVec 8) (shown : ((sysMunmap (machine (neighbours word) []) (poolVa 4) 0x200000
      0x1000).toOption.any fun r => r.1 == 0 && ((sysMmap 1 r.2 (poolVa 9) 0 0x1000 3 mapAnonymousFlag).bind
        Except.toOption).any fun r => r.1 == 0x200000 && byteAt r.2 (poolVa 9) 0x200000 0 == some byte) = true) :
      ∃ k₁ k₂, sysMunmap (machine (neighbours word) []) (poolVa 4) 0x200000 0x1000 = .ok (0, k₁) ∧
        sysMmap 1 k₁ (poolVa 9) 0 0x1000 3 mapAnonymousFlag = some (.ok (0x200000, k₂)) ∧
        byteAt k₂ (poolVa 9) 0x200000 0 = some byte := by
    obtain ⟨⟨ret, k₁⟩, released, check⟩ := ok_of_any _ _ shown
    rw [Bool.and_eq_true] at check
    obtain ⟨⟨ret', k₂⟩, given, check'⟩ := returns_of_any _ _ check.2
    rw [Bool.and_eq_true] at check'
    obtain rfl : ret = 0 := beq_iff_eq.mp check.1
    obtain rfl : ret' = 0x200000 := beq_iff_eq.mp check'.1
    exact ⟨k₁, k₂, released, given, beq_iff_eq.mp check'.2⟩
  obtain ⟨k₁, k₂, released, given, read⟩ := reads 42 42 (by decide +kernel)
  obtain ⟨k₁', k₂', released', given', read'⟩ := reads 0 0 (by decide +kernel)
  have mapped : node nav (machine (neighbours 42) []).mem (poolVa 4) (mmuGetTableIdx 0x200000) = some (poolVa 8) := by
    decide +kernel
  refine ⟨machine (neighbours 42) [], machine (neighbours 0) [], k₁, k₁', k₂, k₂', ⟨rfl, rfl, fun p other => ?_⟩, mapped,
    ⟨released, released'⟩, ⟨given, given'⟩, by rw [read, read']; decide⟩
  funext i
  have away : ¬ poolVa 8 = p := fun same => other same.symm
  simp [machine, neighbours, cellEntry, away]

end Anthill
