import Anthill.ChildExit
import Anthill.MsgbufCreate
import Anthill.MsgbufUndo
import Mathlib.Data.Fintype.Prod

set_option autoImplicit false

namespace Anthill

open Radix FirstFit

/-- Pages of `size` bytes fit somewhere, counted on from 0x200000 through 2^64. -/
def RoomFor (k : Kernel) (t size : Word) : Prop :=
  ∃ n, Room (takenFrom k.mem t 0x200000) (memSizeToPages size).toNat n

-- Whether msgbuf_create is refused, or gets no message buffer, or needs no search for a range, or finds one.
def MsgSys.CreateEnds (s : MsgSys) (name : List CChar) (size : Word) (sendBuf : Bool) : Prop :=
  (name.length = 0 ∨ msbNameMax < name.length ∨ (sendBuf = true ∧ size = 0)) ∨ name ∈ s.reg.liveNames ∨
    (s.reg.Full ∧ canAlloc 1 s.sys.kernel = false) ∨ sendBuf = false ∨
    RoomFor s.sys.kernel (s.sys.table s.sys.current) size

/-- The name is not that of an empty message buffer, and where a connection is made there is room for the pages in the
process of the receiver's owner. -/
structure MsgSys.ConnectEnds (s : MsgSys) (n : Nat) (name : List CChar) : Prop where
  named : name ≠ [] ∨ ∀ i : Fin nodeBufCnt, s.reg.Live i.val
  room : ∀ r : Nat, msgbufGetId s.reg name = .ok r → ¬ (s.reg.buf n).Connected r → (s.reg.buf n).Connected (-1) →
    RoomFor s.sys.kernel (s.sys.table (s.reg.buf r).owner) (s.reg.buf n).size

section Search

variable {k : Kernel} {pos : Pos} {t : Word} (process : Process k pos t)

include process

-- The addresses of a table repeat after 2^36 pages.
theorem takenFrom_round (addr : Word) (n : Nat) :
    takenFrom k.mem t addr (n % 2 ^ 36) = takenFrom k.mem t addr n := by
  have small := addr.isLt
  have same : mmuGetTableIdx (pageAt addr (n % 2 ^ 36)) = mmuGetTableIdx (pageAt addr n) := by
    apply mmuGetTableIdx_number
    rw [pageAt_toNat, pageAt_toNat]
    omega
  rw [takenFrom, takenFrom, pageBusy_eq k pos process.layout t process.root, pageBusy_eq k pos process.layout t process.root,
    same]

/-- The search for a range ends exactly when there is one. -/
theorem memUserFindEmpty_room (size : Word) :
    (∃ vaddr, memUserFindEmpty k.mem t (memSizeToPages size).toNat findEmptyRounds 0x200000 = some vaddr) ↔
      RoomFor k t size := by
  constructor
  · rintro ⟨vaddr, found⟩
    obtain ⟨n, first, _⟩ := memUserFindEmpty_run _ _ _ _ _ _ found
    exact ⟨n, first.fits⟩
  · rintro ⟨n, fits⟩
    have round : Room (takenFrom k.mem t 0x200000) (memSizeToPages size).toNat (n % 2 ^ 36) := by
      intro p less
      have here := fits p less
      rw [← takenFrom_round process] at here ⊢
      rwa [Nat.mod_add_mod]
    have before : n % 2 ^ 36 - 0 < findEmptyRounds := by
      unfold findEmptyRounds
      omega
    obtain ⟨place, found⟩ := search_ends _ _ (n % 2 ^ 36) 0 (Nat.zero_le _) round findEmptyRounds before
    have run := memUserFindEmpty_search k.mem t 0x200000 (memSizeToPages size).toNat findEmptyRounds 0
    rw [pageAt_zero, found] at run
    exact ⟨_, run⟩

/-- mem_user_map_page comes back: the page is mapped now, or it was before, or memory has not lasted. -/
theorem memUserMapPage_returns (v paddr : Word) (attr : MemAttr) :
    (∃ k' pos', memUserMapPage k t v paddr .rw attr = .ok (.ok, k') ∧ Process k' pos' t ∧
      ∀ u, userEntry k'.mem t u = 0 ↔ userEntry k.mem t u = 0 ∧ mmuGetTableIdx u ≠ mmuGetTableIdx v) ∨
    (memUserMapPage k t v paddr .rw attr = .ok (.memExs, k) ∧ userEntry k.mem t v ≠ 0) ∨
    ∃ k', memUserMapPage k t v paddr .rw attr = .ok (.memOom, k') := by
  obtain ⟨pattr, known⟩ : ∃ pattr, userAttr .rw = some pattr := ⟨_, rfl⟩
  rcases memUserMapPage_spec k pos t process.wf process.layout process.root v paddr .rw attr pattr known with
    ⟨k', pos', a, i, result, mapped, _⟩ | ⟨result, there⟩ | result | ⟨dry, _⟩
  · refine .inl ⟨k', pos', result, mapped.process process, fun u => ?_⟩
    have valid := userLeaf_valid paddr (pattr ||| memAttr attr)
    rw [mapped.entry process valid u]
    split_ifs with here
    · exact iff_of_false (valid_ne_zero valid) fun both => both.2 here
    · exact (and_iff_left here).symm
  · exact .inr (.inl ⟨result, fun missing => there ((process.lacks_entry v).mpr missing)⟩)
  · exact .inr (.inr ⟨k, result⟩)
  · refine .inr (.inr ?_)
    exact (memUserMapPage_leaves process.wf process.layout process.root known dry).imp fun _ => And.left

/-- The pool has not enough pages for the tables of a whole address space. -/
theorem Process.address_left : ∃ v, userEntry k.mem t v = 0 := by
  by_contra none
  push Not at none
  have table (path : Idx × Idx × Idx) : ∃ n : Fin managed, pos (poolVa n.val) = some [path.1, path.2.1, path.2.2] := by
    obtain ⟨v, whole⟩ := exists_vaddr [path.1, path.2.1, path.2.2, 0] rfl
    have split : upperIdx v ++ [leafIdx v] = [path.1, path.2.1, path.2.2] ++ [0] := whole
    have upper := (List.append_inj' split rfl).1
    have used := none v
    rw [process.entry_eq, upper] at used
    cases walk : node nav k.mem t [path.1, path.2.1, path.2.2] with
    | none =>
      rw [walk] at used
      exact absurd rfl used
    | some level3 =>
      have there := layout_node k pos process.layout t process.root _ level3 (by simp) walk
      obtain ⟨n, inside, rfl, _⟩ := (process.layout.inUse _ _ there).1
      exact ⟨⟨n, inside⟩, there⟩
  choose frame place using table
  have apart : Function.Injective frame := by
    rintro ⟨a, b, c⟩ ⟨a', b', c'⟩ same
    have paths := (place (a, b, c)).symm.trans (same ▸ place (a', b', c'))
    simpa using paths
  have few := Fintype.card_le_of_injective frame apart
  simp only [Fintype.card_prod, Fintype.card_fin] at few
  rw [managed_eq] at few
  omega

-- So 2^36 pages in a row are not all mapped.
theorem Process.row_left (addr : Word) (first : Nat) : ∃ j, first ≤ j ∧ j < first + 2 ^ 36 ∧
    userEntry k.mem t (pageAt addr j) = 0 := by
  obtain ⟨v, missing⟩ := process.address_left
  have place := userPage_pageAt addr first
  have inside : userPage v < 2 ^ 36 := Nat.mod_lt _ (by decide)
  refine ⟨first + (userPage v + 2 ^ 36 - userPage (pageAt addr first)) % 2 ^ 36, by omega, by omega, ?_⟩
  rw [userEntry_congr k.mem t _ v ?_]
  · exact missing
  · rw [userPage_eq, userPage_pageAt]
    omega

end Search

/-- The loop of _buffer_alloc comes back, and reports nothing but a lack of memory. -/
theorem bufferLoop_returns (t vaddr : Word) (count i : Nat) {k : Kernel} {pos : Pos} (process : Process k pos t) :
    ∃ addr err k', bufferLoop t vaddr k i count = .ok (⟨addr, err⟩, k') ∧ (err = .ok ∨ err = .memOom) := by
  induction count generalizing k pos i with
  | zero => exact ⟨_, _, _, rfl, .inl rfl⟩
  | succ count ih =>
    rcases memKernelAllocPage_rw k process.wf with oom | ⟨va, k₁, taken, allocated⟩
    · simp only [bufferLoop, bufferStep, oom]
      exact ⟨_, _, _, rfl, .inr rfl⟩
    · rcases memUserMapPage_returns (allocated.process process) (pageAt vaddr i) (virtToPhys va) .norm with
        ⟨k₂, pos', mapped, process', _⟩ | ⟨mapped, _⟩ | ⟨k₂, mapped⟩ <;> simp only [bufferLoop, bufferStep, taken, mapped]
      · exact ih (i + 1) process'
      · exact ⟨_, _, _, rfl, .inl rfl⟩
      · exact ⟨_, _, _, rfl, .inl rfl⟩

/-- _buffer_alloc ends with its search, or reports nothing but a lack of memory. -/
theorem bufferAlloc_cases {s : Sys} {pos : Pos} (process : Process s.kernel pos (s.table s.current)) (size : Word) :
    (memUserFindEmpty s.kernel.mem (s.table s.current) (memSizeToPages size).toNat findEmptyRounds 0x200000 = none ∧
      bufferAlloc s size = .error .hang) ∨
    (memUserFindEmpty s.kernel.mem (s.table s.current) (memSizeToPages size).toNat findEmptyRounds 0x200000 ≠ none ∧
      ∃ addr err k, bufferAlloc s size = .ok (⟨addr, err⟩, k) ∧ (err = .ok ∨ err = .memOom)) := by
  cases found : memUserFindEmpty s.kernel.mem (s.table s.current) (memSizeToPages size).toNat findEmptyRounds 0x200000 with
  | none => exact .inl ⟨rfl, by simp only [bufferAlloc, found]⟩
  | some vaddr =>
    refine .inr ⟨Option.some_ne_none vaddr, ?_⟩
    simp only [bufferAlloc, found]
    split_ifs
    · exact ⟨_, _, _, rfl, .inr rfl⟩
    · exact bufferLoop_returns _ _ _ 0 process

theorem bufferAlloc_returns {s : Sys} {pos : Pos} (process : Process s.kernel pos (s.table s.current)) (size : Word) :
    (∃ r, bufferAlloc s size = .ok r) ↔ RoomFor s.kernel (s.table s.current) size := by
  rw [← memUserFindEmpty_room process, ← Option.ne_none_iff_exists']
  rcases bufferAlloc_cases process size with ⟨missed, hangs⟩ | ⟨found, addr, err, k, done, _⟩
  · refine iff_of_false ?_ fun found => found missed
    rintro ⟨r, done⟩
    rw [hangs] at done
    cases done
  · exact iff_of_true ⟨_, done⟩ found

/-- The loop of msgbuf_connect over a range that is free comes back, and reports nothing but a lack of memory: no page is
there already, not even one that the range comes to twice. -/
theorem connectLoop_returns (sendTable sendAddr t recvBuf : Word) (count i : Nat) {k : Kernel} {pos : Pos}
    (process : Process k pos t) (used : ∀ j, j < i → userEntry k.mem t (pageAt recvBuf j) ≠ 0)
    (free : ∀ j, i ≤ j → j < i + count → userEntry k.mem t (pageAt recvBuf j) = 0 ∨
      ∃ j', j' < i ∧ mmuGetTableIdx (pageAt recvBuf j') = mmuGetTableIdx (pageAt recvBuf j)) :
    ∃ err k', connectLoop sendTable sendAddr t recvBuf k i count = .ok (err, k') ∧ (err = .ok ∨ err = .memOom) := by
  induction count generalizing k pos i with
  | zero => exact ⟨_, k, rfl, .inl rfl⟩
  | succ count ih =>
    rcases memUserMapPage_returns process (pageAt recvBuf i) (virtToPhys (memUserGetKaddr k.mem sendTable sendAddr)) .norm with
      ⟨k₁, pos', mapped, process', entries⟩ | ⟨_, there⟩ | ⟨k₁, mapped⟩
    · simp only [connectLoop, mapped]
      refine ih (i + 1) process' (fun j before zero => ?_) fun j low high => ?_
      · obtain ⟨was, away⟩ := (entries _).mp zero
        rcases Nat.lt_succ_iff_lt_or_eq.mp before with less | rfl
        · exact used j less was
        · exact away rfl
      · by_cases same : mmuGetTableIdx (pageAt recvBuf j) = mmuGetTableIdx (pageAt recvBuf i)
        · exact .inr ⟨i, Nat.lt_succ_self i, same.symm⟩
        · rcases free j (by omega) (by omega) with zero | ⟨j', before, equal⟩
          · exact .inl ((entries _).mpr ⟨zero, same⟩)
          · exact .inr ⟨j', Nat.lt_succ_of_lt before, equal⟩
    · -- The pages between the two turns would fill the address space.
      obtain ⟨j', before, equal⟩ := (free i (Nat.le_refl i) (by omega)).resolve_left there
      obtain ⟨j, low, high, zero⟩ := process.row_left recvBuf j'
      rw [userPage_eq, userPage_pageAt, userPage_pageAt] at equal
      exact absurd zero (used j (by omega))
    · simp only [connectLoop, mapped]
      exact ⟨_, _, rfl, .inr rfl⟩

theorem connectLoop_free (sendTable sendAddr recvBuf : Word) {t : Word} {count : Nat} {k : Kernel} {pos : Pos}
    (process : Process k pos t) (found : memUserFindEmpty k.mem t count findEmptyRounds 0x200000 = some recvBuf) :
    ∃ err k', connectLoop sendTable sendAddr t recvBuf k 0 count = .ok (err, k') ∧ (err = .ok ∨ err = .memOom) := by
  obtain ⟨n, first, rfl⟩ := memUserFindEmpty_run _ _ _ _ _ _ found
  refine connectLoop_returns sendTable sendAddr t _ count 0 process (fun j before => absurd before (Nat.not_lt_zero j)) ?_
  intro j _ inside
  rw [Nat.zero_add] at inside
  exact .inl (firstRun_free process count n first j inside)

section Create

variable {stale : Stale} {s : MsgSys} {pos : Pos} (name : List CChar) (size : Word) (sendBuf : Bool)

theorem createEnd_returns (k : Kernel) (reg : Registry) (id : Nat) (process : Process k pos (s.sys.table s.sys.current)) :
    (∃ r, createEnd s k reg id name size sendBuf = .ok r) ↔
      sendBuf = false ∨ RoomFor k (s.sys.table s.sys.current) size := by
  unfold createEnd
  split_ifs with wanted
  · rw [wanted, or_iff_right Bool.noConfusion]
    have room : (∃ r, bufferAlloc (s.sys.setKernel k) size = .ok r) ↔ RoomFor k (s.sys.table s.sys.current) size :=
      bufferAlloc_returns (s := s.sys.setKernel k) process size
    rw [← room]
    rcases bufferAlloc (s.sys.setKernel k) size with halt | ⟨⟨addr, err⟩, k'⟩
    · refine iff_of_false ?_ ?_ <;> rintro ⟨r, done⟩ <;> cases done
    · refine iff_of_true ?_ ⟨_, rfl⟩
      simp only
      split_ifs <;> exact ⟨_, rfl⟩
  · exact iff_of_true ⟨_, rfl⟩ (.inl (Bool.eq_false_iff.mpr wanted))

theorem roomFor_node {k k₁ : Kernel} {va t : Word} (process : Process k pos t)
    (taken : memKernelAllocPage k .rw = (⟨va, .ok⟩, k₁)) : RoomFor k₁ t size ↔ RoomFor k t size := by
  have allocated := taken_allocated process.wf taken
  have process₁ := allocated.process process
  have same : takenFrom k₁.mem t 0x200000 = takenFrom k.mem t 0x200000 := by
    funext n
    rw [takenFrom, takenFrom, pageBusy_eq k₁ pos process₁.layout t process₁.root,
      pageBusy_eq k pos process.layout t process.root, allocated.walks process _ (by simp [mmuGetTableIdx])]
  rw [RoomFor, RoomFor, same]

theorem msgbufCreate_returns (clean : stale.Clean) (named : s.reg.Named)
    (process : Process s.sys.kernel pos (s.sys.table s.sys.current)) :
    (∃ r, msgbufCreate stale s name size sendBuf = .ok r) ↔ s.CreateEnds name size sendBuf := by
  cases msgbufCreate_way name size sendBuf clean named with
  | refused err code why result => exact iff_of_true ⟨_, result⟩ (why.imp_right .inl)
  | full va err k failed full alloc result =>
    obtain ⟨rfl, rfl, rfl⟩ := alloc_failed process.wf failed alloc
    exact iff_of_true ⟨_, result⟩ (.inr (.inr (.inl ⟨full, canAlloc_oom _ 0 alloc⟩)))
  | takes id k reg good nonempty fits clear node allotted result =>
    have fresh : name ∉ s.reg.liveNames := fun there => there.2.elim fun n same => clear n same
    rw [result]
    rcases node with ⟨vacant, rfl, rfl⟩ | ⟨full, rfl, va, taken⟩
    · rw [createEnd_returns name size sendBuf _ _ _ process]
      simp only [MsgSys.CreateEnds, good, fresh, vacant, false_and, false_or]
    · have some : canAlloc 1 s.sys.kernel = true := by
        rw [canAlloc_next _ k va 0 taken]
        rfl
      rw [createEnd_returns name size sendBuf _ _ _ ((taken_allocated process.wf taken).process process),
        roomFor_node size process taken]
      simp only [MsgSys.CreateEnds, good, fresh, some, Bool.true_eq_false, and_false, false_or]

end Create

section Connect

variable {s : MsgSys} {pos : Pos} {id : Int} {n : Nat} (steady : s.Steady pos n) (name : List CChar)

omit steady in
theorem strncmp_empty (left right : List CChar) (same : strncmp left right msbNameMax = 0) : left = [] ↔ right = [] := by
  rw [strncmp, strncmpFrom_zero, show msbNameMax - 1 + 1 = msbNameMax from rfl] at same
  constructor <;> rintro rfl <;> simpa using same

include steady

/-- The name that _msgbuf_get_id looks for is found in the first node, or nowhere in it. -/
theorem getId_cases :
    (msgbufGetId s.reg name = .ok (-1) ∧ ∀ i : Fin nodeBufCnt, strncmp (s.reg.buf i.val).name name msbNameMax ≠ 0) ∨
    ∃ r : Fin nodeBufCnt, msgbufGetId s.reg name = .ok (r.val : Int) ∧ strncmp (s.reg.buf r.val).name name msbNameMax = 0 := by
  obtain ⟨node, rest, nodes⟩ := List.exists_cons_of_ne_nil steady.listed
  have first := s.reg.buf_first node rest nodes
  simp only [msgbufGetId, nodes, first]
  cases hit : Slots.first fun i => decide (strncmp (node i).name name msbNameMax = 0) with
  | none => exact .inl ⟨rfl, fun i => of_decide_eq_false ((Slots.first_none _).mp hit i)⟩
  | some r => exact .inr ⟨r, rfl, of_decide_eq_true (Slots.first_some _ _ hit)⟩

-- What msgbuf_connect can return.
def connectCodes : List KernErr := [.ok, .memOom, .msbCoe, .msbCof, .msbFnd]

omit steady in
theorem connAlloc_cases (msgbuf : Msgbuf) (recvId : Int) :
    (∃ c, connAlloc msgbuf recvId = .ok c ∧ ¬ msgbuf.Connected recvId ∧ msgbuf.Connected (-1)) ∨
    (∃ err, connAlloc msgbuf recvId = .error err ∧ err ∈ connectCodes ∧
      (msgbuf.Connected recvId ∨ ¬ msgbuf.Connected (-1))) := by
  unfold connAlloc
  cases hit : Slots.first fun i => decide ((msgbuf.connections i).id = recvId) with
  | some c => exact .inr ⟨_, rfl, by decide, .inl ⟨c, of_decide_eq_true (Slots.first_some _ _ hit)⟩⟩
  | none =>
    have missed : ¬ msgbuf.Connected recvId := fun ⟨c, here⟩ => of_decide_eq_false ((Slots.first_none _).mp hit c) here
    cases free : Slots.first fun i => decide ((msgbuf.connections i).id = -1) with
    | some c => exact .inl ⟨c, rfl, missed, c, of_decide_eq_true (Slots.first_some _ _ free)⟩
    | none =>
      exact .inr ⟨_, rfl, by decide, .inr fun ⟨c, here⟩ => of_decide_eq_false ((Slots.first_none _).mp free c) here⟩

/-- msgbuf_connect for a message buffer that is there: it panics where its name leads to an empty one, or the search for a
range does not end, or it comes back. -/
theorem msgbufConnect_cases (found : msgbufGet s.reg id = .ok (some n)) :
    (msgbufConnect s id name = .error (.panic "Message buffer ID does not correspond to any message buffer") ∧
      ¬ (name ≠ [] ∨ ∀ i : Fin nodeBufCnt, s.reg.Live i)) ∨
    ((name ≠ [] ∨ ∀ i : Fin nodeBufCnt, s.reg.Live i) ∧
      ((msgbufConnect s id name = .error .hang ∧ ¬ s.ConnectEnds n name) ∨
        (s.ConnectEnds n name ∧ ∃ r s', msgbufConnect s id name = .ok (r, s') ∧ r.err ∈ connectCodes))) := by
  rcases getId_cases steady name with ⟨missed, none⟩ | ⟨r, hit, same⟩
  · have named : name ≠ [] ∨ ∀ i : Fin nodeBufCnt, s.reg.Live i := by
      by_cases empty : name = []
      · refine .inr fun i gone => none i ?_
        rw [gone, empty]
        rfl
      · exact .inl empty
    refine .inr ⟨named, .inr ⟨⟨named, fun r hit => ?_⟩, ⟨-1, .msbFnd⟩, s, ?_, by decide⟩⟩
    · rw [missed] at hit
      have negative := Except.ok.inj hit
      omega
    · rw [msgbufConnect, found, missed]
      rfl
  · have proper : ¬ (r.val : Int) = -1 := by omega
    have empty := strncmp_empty _ _ same
    by_cases live : s.reg.Live r.val
    · have named : name ≠ [] ∨ ∀ i : Fin nodeBufCnt, s.reg.Live i := .inl fun none => live (empty.mpr none)
      refine .inr ⟨named, ?_⟩
      have process : Process s.sys.kernel pos (s.sys.table (s.reg.buf r.val).owner) :=
        ⟨steady.wf, steady.layout, steady.owners _ live⟩
      have ends : s.ConnectEnds n name ↔ (¬ (s.reg.buf n).Connected r.val → (s.reg.buf n).Connected (-1) →
          RoomFor s.sys.kernel (s.sys.table (s.reg.buf r.val).owner) (s.reg.buf n).size) := by
        refine ⟨fun ends => ends.room r.val hit, fun room => ⟨named, fun r' hit' => ?_⟩⟩
        obtain rfl : r.val = r' := by
          have equal := Except.ok.inj (hit.symm.trans hit')
          omega
        exact room
      rw [ends]
      simp only [msgbufConnect, found, hit, if_neg proper, live.get steady.last]
      rcases connAlloc_cases (s.reg.buf n) r.val with ⟨c, place, apart, free⟩ | ⟨err, place, code, taken⟩ <;>
        simp only [place]
      · have only : (¬ (s.reg.buf n).Connected r.val → (s.reg.buf n).Connected (-1) →
            RoomFor s.sys.kernel (s.sys.table (s.reg.buf r.val).owner) (s.reg.buf n).size) ↔
            RoomFor s.sys.kernel (s.sys.table (s.reg.buf r.val).owner) (s.reg.buf n).size :=
          ⟨fun room => room apart free, fun room _ _ => room⟩
        rw [only, ← memUserFindEmpty_room process]
        cases search : memUserFindEmpty s.sys.kernel.mem (s.sys.table (s.reg.buf r.val).owner)
            (memSizeToPages (s.reg.buf n).size).toNat findEmptyRounds 0x200000 with
        | none =>
          refine .inl ⟨rfl, ?_⟩
          rintro ⟨_, done⟩
          cases done
        | some recvBuf =>
          refine .inr ⟨⟨recvBuf, rfl⟩, ?_⟩
          obtain ⟨err, k, looped, rfl | rfl⟩ := connectLoop_free (s.sys.table (s.reg.buf n).owner) (s.reg.buf n).addr _
            process search <;> simp only [looped] <;> split_ifs <;>
            exact ⟨_, _, rfl, by simp [connectCodes]⟩
      · exact .inr ⟨fun apart free => absurd free (taken.resolve_left apart), ⟨-1, err⟩, s, rfl, code⟩
    · refine .inl ⟨?_, ?_⟩
      · have gone : msgbufGet s.reg (r.val : Int) = .ok none :=
          (Registry.get_has steady.listed steady.last r.val).elim And.left fun has => absurd has.2.2 live
        simp only [msgbufConnect, found, hit, if_neg proper, gone]
      · rintro (nonempty | full)
        · exact live fun gone => nonempty (empty.mp gone)
        · exact live (full r)

theorem msgbufConnect_returns (found : msgbufGet s.reg id = .ok (some n)) :
    (∃ r, msgbufConnect s id name = .ok r) ↔ s.ConnectEnds n name := by
  rcases msgbufConnect_cases steady name found with ⟨panics, unnamed⟩ | ⟨_, ⟨hangs, endless⟩ | ⟨ends, r, s', done, _⟩⟩
  · rw [panics]
    refine iff_of_false ?_ fun ends => unnamed ends.named
    rintro ⟨_, done⟩
    cases done
  · rw [hangs]
    refine iff_of_false ?_ endless
    rintro ⟨_, done⟩
    cases done
  · exact iff_of_true ⟨_, done⟩ ends

end Connect

end Anthill
