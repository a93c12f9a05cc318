import Anthill.ElfImage
import Anthill.MmapFailure
import Anthill.MsgbufRuns
import Anthill.MsgbufView

set_option autoImplicit false

namespace Anthill

open Radix FirstFit

-- The names of the live message buffers.
def Registry.liveNames (reg : Registry) : Set (List CChar) := {name | name ≠ [] ∧ ∃ n, (reg.buf n).name = name}

/-- All or nothing: after an error the names, the caller's pages and the pool are as before, and a buffer that is given
has an address and all its pages. -/
structure CreateAtomic (s s' : MsgSys) (r : MsgbufRId) (buf : Option Word) (size : Word) (sendBuf : Bool) : Prop where
  failed : r.err ≠ .ok → s'.reg.liveNames = s.reg.liveNames ∧
    Untouched s.sys.kernel s'.sys.kernel (s.sys.table s.sys.current)
  given : r.err = .ok → sendBuf = true → ∃ addr, buf = some addr ∧ addr ≠ 0 ∧ ∀ j, j < (memSizeToPages size).toNat →
    userAttr .rw = some (userEntry s'.sys.kernel.mem (s.sys.table s.sys.current) (pageAt addr j) &&& leafPermMask)

-- The addresses of `count` pages.
def pageAddrs (vaddr : Word) (count : Nat) : List Word := (List.range count).map (pageAt vaddr)

/-- The first free range from 0x200000 on does not lead to NULL or round the address space, and memory lasts for its
pages and their tables beside `node` pages. -/
def BufferFits (k : Kernel) (t size : Word) (node : Nat) : Prop :=
  ∀ n, FirstRun k.mem t (memSizeToPages size).toNat 0x200000 n → pageAt 0x200000 n ≠ 0 ∧
    (memSizeToPages size).toNat ≤ 2 ^ 36 ∧
    canAlloc (node + ((memSizeToPages size).toNat +
      tablesLackedBy k.mem t (pageAddrs (pageAt 0x200000 n) (memSizeToPages size).toNat))) k = true

-- What is refused is refused before anything is written, and what is begun has the memory that it needs.
def MsgSys.CreateFits (s : MsgSys) (name : List CChar) (size : Word) (sendBuf : Bool) : Prop :=
  (name.length = 0 ∨ msbNameMax < name.length ∨ (sendBuf = true ∧ size = 0)) ∨ name ∈ s.reg.liveNames ∨
    (s.reg.Full ∧ canAlloc 1 s.sys.kernel = false) ∨ sendBuf = false ∨
    (¬ s.reg.Full ∧ BufferFits s.sys.kernel (s.sys.table s.sys.current) size 0) ∨
    (s.reg.Full ∧ BufferFits s.sys.kernel (s.sys.table s.sys.current) size 1)

section Places

variable {t : Word}

/-- Pages that have all been placed are different pages, and memory has lasted for them and their tables. -/
theorem placePages_apart (pages : List NewPage) : ∀ {k k₁ : Kernel} {pos : Pos}, Process k pos t →
    placePages t k pages = some k₁ →
      pages.Pairwise (fun page page' => mmuGetTableIdx page.vaddr ≠ mmuGetTableIdx page'.vaddr) ∧
        canAlloc (pages.length + tablesLackedBy k.mem t (pages.map NewPage.vaddr)) k = true := by
  induction pages with
  | nil => exact fun {k _ _} _ _ => ⟨List.Pairwise.nil, rfl⟩
  | cons page pages ih =>
    intro k k₁ pos process placed
    obtain ⟨k₂, first, rest⟩ := Option.bind_eq_some_iff.mp placed
    obtain ⟨_, _, pos₂, _, _, got⟩ := placePage_got process page first
    have process₂ := got.stays process
    obtain ⟨apart, enough⟩ := ih process₂ rest
    obtain ⟨_, _, gains⟩ := placePages_gains pages process₂ rest
    refine ⟨List.pairwise_cons.mpr ⟨fun page' listed same => ?_, apart⟩, ?_⟩
    · have mapped := (got.gains process).entry page List.mem_cons_self
      rw [userEntry_congr _ _ _ _ same, gains.lacked page' listed] at mapped
      exact NewPage.Leaf.ne_zero _ _ mapped rfl
    · rw [List.length_cons, List.map_cons, got.leaves process]
      exact enough

theorem rangePages_vaddrs (vaddr : Word) (perm : MemPerm) (count : Nat) :
    (rangePages vaddr perm count).map NewPage.vaddr = pageAddrs vaddr count := by
  rw [rangePages, pageAddrs, List.map_map]
  rfl

theorem userPage_pageAt (vaddr : Word) (j : Nat) : userPage (pageAt vaddr j) = (vaddr.toNat / 4096 + j) % 2 ^ 36 := by
  have small := vaddr.isLt
  rw [userPage, pageAt_toNat]
  omega

theorem rangePages_apart (vaddr : Word) (perm : MemPerm) (count : Nat) :
    (rangePages vaddr perm count).Pairwise (fun page page' => mmuGetTableIdx page.vaddr ≠ mmuGetTableIdx page'.vaddr) ↔
      count ≤ 2 ^ 36 := by
  rw [rangePages, List.pairwise_map]
  constructor
  · intro apart
    by_contra many
    have same := List.pairwise_iff_getElem.mp apart 0 (2 ^ 36) (by simp; omega) (by simpa using many) (by decide)
    rw [ne_eq, userPage_eq] at same
    simp only [List.getElem_range, NewPage.anonymous, userPage_pageAt] at same
    omega
  · intro few
    refine List.Pairwise.imp_of_mem ?_ List.pairwise_lt_range
    intro i j first second before same
    have last := List.mem_range.mp second
    rw [userPage_eq] at same
    simp only [NewPage.anonymous, userPage_pageAt] at same
    omega

/-- The pages of a range that is free are placed just when it does not overlap itself and memory lasts. -/
theorem rangePages_placed {k : Kernel} {pos : Pos} (process : Process k pos t) (vaddr : Word) (count : Nat)
    (free : ∀ j, j < count → userEntry k.mem t (pageAt vaddr j) = 0) :
    (∃ k₁, placePages t k (rangePages vaddr .rw count) = some k₁) ↔
      count ≤ 2 ^ 36 ∧ canAlloc (count + tablesLackedBy k.mem t (pageAddrs vaddr count)) k = true := by
  have length : (rangePages vaddr .rw count).length = count := by rw [rangePages, List.length_map, List.length_range]
  rw [← rangePages_apart vaddr .rw count, ← rangePages_vaddrs vaddr .rw count]
  constructor
  · rintro ⟨k₁, placed⟩
    obtain ⟨apart, enough⟩ := placePages_apart _ process placed
    rw [length] at enough
    exact ⟨apart, enough⟩
  · rintro ⟨apart, enough⟩
    refine placePages_lasts _ process (fun page listed => ?_) apart (by rwa [length])
    obtain ⟨j, before, rfl⟩ := List.mem_map.mp listed
    exact ⟨rfl, free j (List.mem_range.mp before)⟩

end Places

theorem firstRun_free {k : Kernel} {pos : Pos} {t : Word} (process : Process k pos t) (count n : Nat)
    (first : FirstRun k.mem t count 0x200000 n) (j : Nat) (before : j < count) :
    userEntry k.mem t (pageAt (pageAt 0x200000 n) j) = 0 := by
  have free := first.fits j before
  rw [takenFrom, ← pageAt_pageAt] at free
  by_contra used
  rw [(process.busy_entry _).mpr used] at free
  cases free

/-- _buffer_alloc gives a buffer just where there is room for one. -/
theorem bufferAlloc_fits {s : Sys} {pos : Pos} (process : Process s.kernel pos (s.table s.current)) (size : Word)
    (r : MemRAddr) (k : Kernel) (done : bufferAlloc s size = .ok (r, k)) :
    (r.err = .ok ∧ r.addr ≠ 0) ↔ BufferFits s.kernel (s.table s.current) size 0 := by
  cases found : memUserFindEmpty s.kernel.mem (s.table s.current) (memSizeToPages size).toNat findEmptyRounds 0x200000 with
  | none =>
    simp only [bufferAlloc, found] at done
    cases done
  | some vaddr =>
    obtain ⟨n, first, rfl⟩ := memUserFindEmpty_run _ _ _ _ _ _ found
    have only (fits : BufferFits s.kernel (s.table s.current) size 0) := fits n first
    by_cases null : pageAt 0x200000 n = 0
    · simp only [bufferAlloc, found, null, if_true, Except.ok.injEq, Prod.mk.injEq] at done
      obtain ⟨rfl, -⟩ := done
      exact iff_of_false (fun both => KernErr.noConfusion both.1) fun fits => (only fits).1 null
    · have placed := rangePages_placed process (pageAt 0x200000 n) (memSizeToPages size).toNat
        (firstRun_free process _ n first)
      constructor
      · rintro ⟨fine, good⟩
        obtain ⟨addr, err⟩ := r
        obtain rfl : err = .ok := fine
        have here : addr = pageAt 0x200000 n := Option.some.inj ((bufferAlloc_found done good).symm.trans found)
        subst here
        have places := placed.mp ⟨k, (bufferAlloc_places good found k).mp done⟩
        intro m first'
        obtain rfl := Least.unique _ _ first first'
        rw [Nat.zero_add]
        exact ⟨null, places⟩
      · intro fits
        have places := (only fits).2
        rw [Nat.zero_add] at places
        obtain ⟨k₁, all⟩ := placed.mpr places
        have given := (bufferAlloc_places null found k₁).mpr all
        rw [done] at given
        obtain ⟨rfl, -⟩ := Prod.mk.inj (Except.ok.inj given)
        exact ⟨rfl, null⟩

/-- The page that _msgbuf_alloc takes for a node is one less for the buffer. -/
theorem bufferFits_node {k k₁ : Kernel} {pos : Pos} {t va : Word} (process : Process k pos t) (size : Word)
    (taken : memKernelAllocPage k .rw = (⟨va, .ok⟩, k₁)) : BufferFits k₁ t size 0 ↔ BufferFits k t size 1 := by
  have allocated := taken_allocated process.wf taken
  have busy (v : Word) : pageBusy k₁.mem t v = pageBusy k.mem t v := by
    have process₁ := allocated.process process
    rw [pageBusy_eq k₁ pos process₁.layout t process₁.root, pageBusy_eq k pos process.layout t process.root,
      allocated.walks process _ (by simp [mmuGetTableIdx])]
  have runs (n : Nat) : FirstRun k₁.mem t (memSizeToPages size).toNat 0x200000 n ↔
      FirstRun k.mem t (memSizeToPages size).toNat 0x200000 n := by
    have same : takenFrom k₁.mem t 0x200000 = takenFrom k.mem t 0x200000 := funext fun n => busy _
    rw [FirstRun, FirstRun, same]
  have tables (vaddrs : List Word) : tablesLackedBy k₁.mem t vaddrs = tablesLackedBy k.mem t vaddrs := by
    have lacked (v : Word) : lackedTables k₁.mem t v = lackedTables k.mem t v := by
      ext s
      simp only [mem_lackedTables]
      refine and_congr_right fun onPath => ?_
      rw [allocated.walks process s (Nat.le_succ_of_le onPath.length_le)]
    simp only [tablesLackedBy, lacked]
  refine forall_congr' fun n => ?_
  rw [runs, tables, Nat.zero_add, Nat.add_comm 1, canAlloc_next k k₁ va _ taken]

section Create

variable {stale : Stale} {s s' : MsgSys} {pos : Pos} {name : List CChar} {size : Word} {sendBuf : Bool} {r : MsgbufRId}
  {buf : Option Word}

theorem CreateAtomic.refused (k : Kernel) (same : s' = ⟨s.sys.setKernel k, s.reg⟩) (kept : k = s.sys.kernel)
    (failed : r.err ≠ .ok) : CreateAtomic s s' r buf size sendBuf := by
  subst same kept
  exact ⟨fun _ => ⟨rfl, .refl _ _⟩, fun fine => absurd fine failed⟩

/-- How msgbuf_create ends with a message buffer: only the memory of the buffer can fail now. -/
theorem createEnd_atomic (k : Kernel) (reg : Registry) (id : Nat) (nonempty : name ≠ []) (fits : name.length ≤ msbNameMax)
    (fresh : name ∉ s.reg.liveNames) (allotted : Allotted s.reg reg id) (process : Process k pos (s.sys.table s.sys.current))
    (done : createEnd s k reg id name size sendBuf = .ok ((r, buf), s')) : CreateAtomic s s' r buf size sendBuf ↔
      sendBuf = false ∨ BufferFits k (s.sys.table s.sys.current) size 0 := by
  rw [createEnd] at done
  split_ifs at done with wanted
  · cases alloc : bufferAlloc (s.sys.setKernel k) size with
    | error halt =>
      rw [alloc] at done
      cases done
    | ok result =>
      obtain ⟨⟨addr, err⟩, k'⟩ := result
      have room : (err = .ok ∧ addr ≠ 0) ↔ BufferFits k (s.sys.table s.sys.current) size 0 :=
        bufferAlloc_fits (s := s.sys.setKernel k) process size ⟨addr, err⟩ k' alloc
      have only : (sendBuf = false ∨ BufferFits k (s.sys.table s.sys.current) size 0) ↔ (err = .ok ∧ addr ≠ 0) := by
        rw [room, wanted]
        exact or_iff_right Bool.noConfusion
      rw [only]
      simp only [alloc] at done
      split_ifs at done with fine
      · obtain ⟨same, rfl⟩ := Prod.mk.inj (Except.ok.inj done)
        obtain ⟨rfl, rfl⟩ := Prod.mk.inj same
        subst fine
        constructor
        · rintro ⟨_, given⟩
          obtain ⟨_, here, good, _⟩ := given rfl wanted
          exact ⟨rfl, (Option.some.inj here).symm ▸ good⟩
        · rintro ⟨_, good⟩
          refine ⟨fun failed => absurd rfl failed, fun _ _ => ⟨addr, rfl, good, fun j before => ?_⟩⟩
          have placed := (bufferAlloc_places (s := s.sys.setKernel k) good (bufferAlloc_found alloc good) k').mp alloc
          obtain ⟨_, _, gains⟩ := placePages_gains _ process placed
          have listed : NewPage.anonymous (pageAt addr j) .rw ∈ rangePages addr .rw (memSizeToPages size).toNat :=
            List.mem_map.mpr ⟨j, List.mem_range.mpr before, rfl⟩
          obtain ⟨_, _, leaf⟩ := gains.entry _ listed
          exact leaf.bits.1
      · obtain ⟨same, rfl⟩ := Prod.mk.inj (Except.ok.inj done)
        obtain ⟨rfl, rfl⟩ := Prod.mk.inj same
        refine iff_of_false (fun atomic => ?_) fun both => fine both.1
        -- The name is there now, and was not before.
        have names := (atomic.failed fine).1
        refine fresh (names ▸ ⟨nonempty, id, ?_⟩)
        rw [Registry.buf_setBuf_self _ _ _ allotted.inside]
        exact List.take_of_length_le fits
  · obtain ⟨same, rfl⟩ := Prod.mk.inj (Except.ok.inj done)
    obtain ⟨rfl, rfl⟩ := Prod.mk.inj same
    exact iff_of_true ⟨fun failed => absurd rfl failed, fun _ asked => absurd asked wanted⟩
      (.inl (Bool.eq_false_iff.mpr wanted))

theorem msgbufCreate_atomic (clean : stale.Clean) (named : s.reg.Named)
    (process : Process s.sys.kernel pos (s.sys.table s.sys.current))
    (done : msgbufCreate stale s name size sendBuf = .ok ((r, buf), s')) :
    CreateAtomic s s' r buf size sendBuf ↔ s.CreateFits name size sendBuf := by
  cases msgbufCreate_way name size sendBuf clean named with
  | refused err code why result =>
    rw [result] at done
    obtain ⟨same, rfl⟩ := Prod.mk.inj (Except.ok.inj done)
    obtain ⟨rfl, rfl⟩ := Prod.mk.inj same
    have failed : err ≠ .ok := fun fine => by simp [fine] at code
    exact iff_of_true (.refused s.sys.kernel rfl rfl failed) (why.imp_right .inl)
  | full va err k failed full alloc result =>
    rw [result] at done
    obtain ⟨same, rfl⟩ := Prod.mk.inj (Except.ok.inj done)
    obtain ⟨rfl, rfl⟩ := Prod.mk.inj same
    obtain ⟨rfl, rfl, rfl⟩ := alloc_failed process.wf failed alloc
    exact iff_of_true (.refused s.sys.kernel rfl rfl failed) (.inr (.inr (.inl ⟨full, canAlloc_oom _ 0 alloc⟩)))
  | takes id k reg good nonempty fits clear node allotted result =>
    rw [result] at done
    have fresh : name ∉ s.reg.liveNames := fun there => there.2.elim fun n same => clear n same
    rcases node with ⟨vacant, rfl, rfl⟩ | ⟨full, rfl, va, taken⟩
    · rw [createEnd_atomic _ _ _ nonempty fits fresh allotted process done]
      simp only [MsgSys.CreateFits, good, fresh, vacant, false_and, not_false_eq_true, true_and, or_false, false_or]
    · have some : canAlloc 1 s.sys.kernel = true := by
        rw [canAlloc_next _ k va 0 taken]
        rfl
      have allocated := taken_allocated process.wf taken
      rw [createEnd_atomic _ _ _ nonempty fits fresh allotted (allocated.process process) done,
        bufferFits_node process size taken]
      simp only [MsgSys.CreateFits, good, fresh, full, some, not_true_eq_false, false_and, true_and, and_false,
        Bool.true_eq_false, false_or]

end Create

/-- A msgbuf_create that returns is all or nothing exactly where it gets what it needs, or is refused before it takes a
message buffer: what it has taken by then it keeps. -/
theorem msgbuf_create_atomic (stale : Stale) (clean : stale.Clean) (sys : Sys) (w : MsgTasks)
    (run : Run (MsgTasks.Takes stale) (fun _ _ => True) (.fresh sys) w) (t : Word) (pos : Pos)
    (tables : SysTables w.msg.sys pos) (live : w.msg.sys.Live t) (name : List CChar) (size : Word) (sendBuf : Bool)
    (r : MsgbufRId) (buf : Option Word) (s' : MsgSys)
    (done : msgbufCreate stale (w.msg.as t) name size sendBuf = .ok ((r, buf), s')) :
    CreateAtomic (w.msg.as t) s' r buf size sendBuf ↔ (w.msg.as t).CreateFits name size sendBuf :=
  msgbufCreate_atomic (s := w.msg.as t) clean (MsgTasks.run_sound clean run).named
    ⟨tables.wf, tables.layout, tables.roots t live⟩ done

theorem msgbuf_create_atomic_made : (viewStart.as (poolVa 10)).CreateFits (letter 0) 0x2000 true := by
  obtain ⟨⟨made, s'⟩, done, check⟩ := ok_of_any (msgbufCreate zeroPages (viewStart.as (poolVa 10)) (letter 0) 0x2000 true)
    (fun r => decide (r.1 = (⟨0, .ok⟩, some 0x200000)) && (List.range 2).all fun j =>
      userAttr .rw == some (userEntry r.2.sys.kernel.mem (poolVa 4) (pageAt 0x200000 j) &&& leafPermMask))
    (by decide +kernel)
  obtain ⟨same, pages⟩ := (Bool.and_eq_true _ _).mp check
  obtain rfl := of_decide_eq_true same
  refine (msgbuf_create_atomic zeroPages zeroPages_clean viewStart.sys (.fresh viewStart.sys) .start (poolVa 10) _
    viewStart_tables ⟨0, rfl⟩ _ _ _ _ _ s' done).mp ⟨fun failed => absurd rfl failed, fun _ _ => ?_⟩
  refine ⟨0x200000, rfl, by decide, fun j before => ?_⟩
  exact beq_iff_eq.mp (List.all_eq_true.mp pages j (List.mem_range.mpr before))

-- The last page goes to the node, and the name stays.
theorem failed_create_keeps_name : ¬ ∀ (stale : Stale) (_ : stale.Clean) (sys : Sys) (w : MsgTasks)
    (_ : Run (MsgTasks.Takes stale) (fun _ _ => True) (.fresh sys) w) (t : Word) (pos : Pos),
    SysTables w.msg.sys pos → w.msg.sys.Live t → ∀ (name : List CChar) (size : Word) (sendBuf : Bool) (r : MsgbufRId)
    (buf : Option Word) (s' : MsgSys), msgbufCreate stale (w.msg.as t) name size sendBuf = .ok ((r, buf), s') →
    CreateAtomic (w.msg.as t) s' r buf size sendBuf := by
  intro claim
  obtain ⟨⟨made, s'⟩, done, check⟩ := ok_of_any (msgbufCreate zeroPages ((booted [20]).as (poolVa 10)) (letter 0) 0x1000 true)
    (fun r => decide (r.1 = (⟨-1, .memOom⟩, none) ∧ (r.2.reg.buf 0).name = letter 0)) (by decide +kernel)
  obtain ⟨same, named⟩ := of_decide_eq_true check
  obtain rfl := same
  have tables : SysTables (booted [20]).sys (posOf [(4, [])]) :=
    (oneTask_layout [] [20] [(4, [])] (by decide +kernel) (by decide +kernel) (by decide +kernel) (by decide)).tables
  have atomic := claim zeroPages zeroPages_clean (booted [20]).sys (.fresh (booted [20]).sys) .start (poolVa 10) _ tables
    ⟨0, rfl⟩ _ _ _ _ _ s' done
  have there : letter 0 ∈ s'.reg.liveNames := ⟨by decide, 0, named⟩
  rw [(atomic.failed (by simp)).1] at there
  obtain ⟨nonempty, n, same⟩ := there
  have blank : ((booted [20]).reg.buf n).name = [] := by
    rw [Registry.buf_outside _ _ (by simp [booted])]
    rfl
  exact nonempty (same.symm.trans blank)

end Anthill
