import Anthill.FindEmpty
import Anthill.LeafEntries

set_option autoImplicit false

namespace Anthill

open Radix FirstFit

def flagAttr (flags : Int) : MemAttr := if flags = mapDeviceFlag then .devc else .norm

-- The first run of `pageCnt` free pages that mem_user_find_empty meets from `start` on.
def FirstRun (m : Mem) (t : Word) (pageCnt : Nat) (start : Word) (n : Nat) : Prop :=
  Least (takenFrom m t start) pageCnt 0 n

/-- What the caller of sys_mmap counts on at the address `a` that it gets: the pages are new, and their entries hold
the permission and the type of memory that it asked for, and no other attribute. -/
structure MmapPromise (m m' : Mem) (t a len : Word) (prot flags : Int) : Prop where
  aligned : a.toNat % 4096 = 0
  below : a.toNat + len.toNat ≤ 2 ^ 48
  new : ∀ p, Intersects a len p → userEntry m t p = 0
  leaf : ∀ p, Intersects a len p → ∃ perm pattr, protPerm prot = some perm ∧ userAttr perm = some pattr ∧
    userEntry m' t p &&& ~~~vaddrMask = userLeaf 0 (pattr ||| memAttr (flagAttr flags))

/-- `pageCnt` pages from page `page` on end at or below 2^48, and nothing is mapped there. -/
structure EmptyWindow (m : Mem) (t : Word) (pageCnt page : Nat) : Prop where
  below : (page + pageCnt) * 4096 ≤ 2 ^ 48
  unmapped : ∀ p, p < pageCnt → pageBusy m t (pageNumber (page + p)) = false

/-- There is a window at or above `start`; or the search comes round to one at the end of the address space, with
no free run before it. -/
def WindowAhead (m : Mem) (t : Word) (pageCnt : Nat) (start : Word) : Prop :=
  (∃ n, EmptyWindow m t pageCnt (start.toNat / 4096 + n)) ∨
    (∀ n, start.toNat + n * 4096 < 2 ^ 64 → ¬ Room (takenFrom m t start) pageCnt n) ∧ ∃ page, EmptyWindow m t pageCnt page

/-- A device range starts with a page and ends at or below 2^48. For an anonymous one the length does not wrap around
when it is rounded up, and there is a window from the hint on. -/
def MmapFits (m : Mem) (t addr len : Word) (flags : Int) : Prop :=
  if flags = mapDeviceFlag then addr.toNat % 4096 = 0 ∧ addr.toNat + len.toNat ≤ 2 ^ 48
  else len.toNat + 4095 < 2 ^ 64 ∧ WindowAhead m t (memSizeToPages len).toNat (anonymousHint addr)

theorem pageBusy_congr (m : Mem) (t u v : Word) (same : mmuGetTableIdx u = mmuGetTableIdx v) :
    pageBusy m t u = pageBusy m t v := by
  simp only [mmuGetTableIdx_eq, List.cons.injEq, and_true] at same
  obtain ⟨level0, level1, level2, level3⟩ := same
  simp only [pageBusy, userWalk, level0, level1, level2, level3]

theorem emptyWindow_iff (m : Mem) (t start : Word) (pageCnt n page : Nat)
    (same : (start.toNat / 4096 + n) % 2 ^ 36 = page % 2 ^ 36) : EmptyWindow m t pageCnt page ↔
      Room (takenFrom m t start) pageCnt n ∧ (page + pageCnt) * 4096 ≤ 2 ^ 48 := by
  have busy (p : Nat) : takenFrom m t start (n + p) = pageBusy m t (pageNumber (page + p)) := by
    refine pageBusy_congr m t _ _ ((mmuGetTableIdx_pageAt start (n + p)).trans (mmuGetTableIdx_number _ _ ?_))
    rw [pageNumber, pageNumber, BitVec.toNat_ofNat, BitVec.toNat_ofNat]
    omega
  constructor
  · rintro ⟨below, free⟩
    exact ⟨fun p less => (busy p).trans (free p less), below⟩
  · rintro ⟨room, below⟩
    exact ⟨below, fun p less => (busy p).symm.trans (room p less)⟩

/-- The first free run from `start` on ends below 2^48 just where a window is ahead. -/
theorem windowAhead_iff (m : Mem) (t start : Word) (pageCnt n : Nat) (aligned : start.toNat % 4096 = 0)
    (first : FirstRun m t pageCnt start n) :
    WindowAhead m t pageCnt start ↔ (pageAt start n).toNat + pageCnt * 4096 ≤ 2 ^ 48 := by
  have small := start.isLt
  have place := pageAt_toNat start n
  constructor
  · rintro (⟨j, window⟩ | ⟨none, page, window⟩)
    · obtain ⟨room, below⟩ := (emptyWindow_iff m t start pageCnt j _ rfl).mp window
      have before : n ≤ j := Nat.not_lt.mp fun less => first.first j (Nat.zero_le j) less room
      omega
    · have wraps : 2 ^ 64 ≤ start.toNat + n * 4096 := Nat.not_lt.mp fun less => none n less first.fits
      obtain ⟨room, below⟩ := (emptyWindow_iff m t start pageCnt ((2 ^ 64 - start.toNat) / 4096 + page) page
        (by omega)).mp window
      have before : n ≤ (2 ^ 64 - start.toNat) / 4096 + page :=
        Nat.not_lt.mp fun less => first.first _ (Nat.zero_le _) less room
      omega
  · intro below
    by_cases wraps : start.toNat + n * 4096 < 2 ^ 64
    · refine .inl ⟨n, (emptyWindow_iff m t start pageCnt n _ rfl).mpr ⟨first.fits, ?_⟩⟩
      omega
    · refine .inr ⟨fun j less => first.first j (Nat.zero_le j) (by omega), (pageAt start n).toNat / 4096, ?_⟩
      exact (emptyWindow_iff m t start pageCnt n _ (by omega)).mpr ⟨first.fits, by omega⟩

-- Outside the address a leaf has just the attributes.
theorem userLeaf_attrs (paddr : Word) (page : paddr &&& vaddrMask = paddr) (perm : MemPerm) (pattr : Word)
    (known : userAttr perm = some pattr) (attr : MemAttr) :
    userLeaf paddr (pattr ||| memAttr attr) &&& ~~~vaddrMask = userLeaf 0 (pattr ||| memAttr attr) := by
  rw [userLeaf_and paddr _ _ page (by decide)]
  cases perm <;> cases known <;> cases attr <;> decide

theorem Gains.map {A B : Type} {addr : A → Word} {Leaf : A → Word → Prop} {m m' : Mem} {t : Word} (f : B → A)
    (Leaf' : B → Word → Prop) (weaker : ∀ b e, Leaf (f b) e → Leaf' b e) (bs : List B)
    (gains : Gains addr Leaf m m' t (bs.map f)) : Gains (fun b => addr (f b)) Leaf' m m' t bs := by
  refine ⟨fun b listed => gains.lacked _ (List.mem_map_of_mem listed),
    fun b listed => weaker b _ (gains.entry _ (List.mem_map_of_mem listed)), fun u away => gains.others u ?_⟩
  intro page listed
  obtain ⟨b, there, rfl⟩ := List.mem_map.mp listed
  exact away b there

section Device

variable {t : Word} {perm : MemPerm}

def DeviceLeaf (perm : MemPerm) (vaddr : Word) (j : Nat) (e : Word) : Prop :=
  ∃ pattr, userAttr perm = some pattr ∧ e = userLeaf (pageAt vaddr j) (pattr ||| memAttr .devc)

theorem deviceLoop_gains (vaddr : Word) (count : Nat) : ∀ {k k' : Kernel} {pos : Pos} (i : Nat) (ret : Word),
    Process k pos t → deviceLoop t vaddr perm k i count = .ok (ret, k') → ret ≠ enomem →
      ret = vaddr ∧ ∃ pos', Process k' pos' t ∧
        Gains (pageAt vaddr) (DeviceLeaf perm vaddr) k.mem k'.mem t (List.range' i count) := by
  induction count with
  | zero =>
    intro k k' pos i ret process result _
    cases result
    exact ⟨rfl, pos, process, .nil fun _ => rfl⟩
  | succ count ih =>
    intro k k' pos i ret process result good
    rw [deviceLoop, deviceStep] at result
    rcases mapping : memUserMapPage k t (pageAt vaddr i) (pageAt vaddr i) perm .devc with halt | ⟨err, k₂⟩
    · rw [mapping] at result
      cases result
    · rw [mapping] at result
      cases err
      case ok =>
        obtain ⟨pattr, pos₂, _, _, known, mapped⟩ :=
          memUserMapPage_ok k pos t process.wf process.layout process.root _ _ _ _ _ mapping
        obtain ⟨here, pos', process', rest⟩ := ih (i + 1) ret (mapped.process process) result good
        refine ⟨here, pos', process', ?_⟩
        have first : Gains (pageAt vaddr) (DeviceLeaf perm vaddr) k.mem k₂.mem t [i] :=
          mapped.gains process (userLeaf_valid _ _) i rfl ⟨pattr, known, rfl⟩
        refine first.append (fun j e leaf => ?_) rest
        obtain ⟨_, _, rfl⟩ := leaf
        exact valid_ne_zero (userLeaf_valid _ _)
      all_goals exact absurd (Prod.mk.inj (Except.ok.inj result)).1.symm good

end Device

-- The pages of a range that starts with a page and ends below 2^48.
theorem intersects_page (a len p : Word) (aligned : a.toNat % 4096 = 0) (below : a.toNat + len.toNat ≤ 2 ^ 48)
    (inside : Intersects a len p) : ∃ j, j < (memSizeToPages len).toNat ∧ p = pageAt a j ∧
      p.toNat < 2 ^ 48 ∧ p.toNat % 4096 = 0 := by
  obtain ⟨page, before, behind⟩ := inside
  have count := memSizeToPages_toNat len (by omega)
  refine ⟨(p.toNat - a.toNat) / 4096, by omega, ?_, by omega, page⟩
  apply BitVec.eq_of_toNat_eq
  rw [pageAt_toNat]
  omega

theorem memUserFindEmpty_run (m : Mem) (t addr found : Word) (pageCnt fuel : Nat)
    (result : memUserFindEmpty m t pageCnt fuel addr = some found) :
    ∃ n, FirstRun m t pageCnt addr n ∧ found = pageAt addr n := by
  have run := memUserFindEmpty_search m t addr pageCnt fuel 0
  rw [pageAt_zero, result] at run
  obtain ⟨n, search, here⟩ := Option.map_eq_some_iff.mp run.symm
  exact ⟨n, search_least _ _ _ _ _ search, here.symm⟩

section Calls

variable {fuel : Nat} {k k' : Kernel} {t addr len a : Word} {prot : Int}

theorem sysMmap_given {flags : Int} (good : MmapOk a) (given : sysMmap fuel k t addr len prot flags = some (.ok (a, k'))) :
    ∃ perm, protPerm prot = some perm ∧
      ((flags = mapAnonymousFlag ∧ mapAnonymous fuel k t addr len perm = some (.ok (a, k'))) ∨
        flags = mapDeviceFlag ∧ mapDevice fuel k t addr len perm = some (.ok (a, k'))) := by
  unfold sysMmap at given
  by_cases empty : len = 0
  · rw [if_pos empty] at given
    cases given
    exact absurd rfl good.1
  · rw [if_neg empty] at given
    cases known : protPerm prot with
    | none =>
      rw [known] at given
      cases given
      exact absurd rfl good.2.2
    | some perm =>
      rw [known] at given
      by_cases anonymous : flags = mapAnonymousFlag
      · simp only [anonymous, if_true] at given
        exact ⟨perm, rfl, .inl ⟨anonymous, given⟩⟩
      · by_cases device : flags = mapDeviceFlag
        · simp only [device, show mapDeviceFlag ≠ mapAnonymousFlag by decide, if_true, if_false] at given
          exact ⟨perm, rfl, .inr ⟨device, given⟩⟩
        · simp only [anonymous, device, if_false] at given
          cases given
          exact absurd rfl good.2.2

theorem mapAnonymous_given {pos : Pos} {perm : MemPerm} (process : Process k pos t) (good : a ≠ enomem)
    (given : mapAnonymous fuel k t addr len perm = some (.ok (a, k'))) :
    (∃ n, FirstRun k.mem t (memSizeToPages len).toNat (anonymousHint addr) n ∧ a = pageAt (anonymousHint addr) n) ∧
      Gains (pageAt a) (fun _ e => ∃ paddr, LeafOf perm .norm paddr e) k.mem k'.mem t
        (List.range (memSizeToPages len).toNat) := by
  simp only [mapAnonymous] at given
  cases found : memUserFindEmpty k.mem t (memSizeToPages len).toNat fuel (anonymousHint addr) with
  | none =>
    rw [found] at given
    cases given
  | some vaddr =>
    simp only [found] at given
    by_cases null : vaddr = 0
    · simp only [null, if_true] at given
      cases given
      exact absurd rfl good
    · simp only [null, if_false] at given
      obtain ⟨rfl, placed⟩ := (anonymousLoop_places k k' t vaddr perm _ a good).mp (Option.some.inj given)
      obtain ⟨_, _, gains⟩ := placePages_gains _ process placed
      refine ⟨memUserFindEmpty_run k.mem t _ a _ fuel found, ?_⟩
      refine Gains.map (fun j => NewPage.anonymous (pageAt a j) perm) _ (fun j e leaf => ?_) _ gains
      obtain ⟨va, _, leaf⟩ := leaf
      exact ⟨virtToPhys va, leaf⟩

theorem mapDevice_given {pos : Pos} {perm : MemPerm} (process : Process k pos t) (good : a ≠ enomem)
    (given : mapDevice fuel k t addr len perm = some (.ok (a, k'))) : a = addr ∧
      Gains (pageAt a) (DeviceLeaf perm a) k.mem k'.mem t (List.range (memSizeToPages len).toNat) := by
  simp only [mapDevice] at given
  cases found : memUserFindEmpty k.mem t (memSizeToPages len).toNat fuel addr with
  | none =>
    rw [found] at given
    cases given
  | some vaddr =>
    simp only [found] at given
    by_cases here : vaddr = addr
    · simp only [here, ne_eq, not_true_eq_false, if_false] at given
      obtain ⟨rfl, _, _, gains⟩ := deviceLoop_gains addr _ 0 a process (Option.some.inj given) good
      rw [← List.range_eq_range'] at gains
      exact ⟨rfl, gains⟩
    · simp only [here, ne_eq, not_false_eq_true, if_true] at given
      cases given
      exact absurd rfl good

end Calls

theorem promise_of_gains {m m' : Mem} {t a len : Word} {prot flags : Int} {Leaf : Nat → Word → Prop} (perm : MemPerm)
    (known : protPerm prot = some perm) (aligned : a.toNat % 4096 = 0) (below : a.toNat + len.toNat ≤ 2 ^ 48)
    (gains : Gains (pageAt a) Leaf m m' t (List.range (memSizeToPages len).toNat))
    (leafOf : ∀ j e, (pageAt a j).toNat < 2 ^ 48 → (pageAt a j).toNat % 4096 = 0 → Leaf j e →
      ∃ paddr, LeafOf perm (flagAttr flags) paddr e) : MmapPromise m m' t a len prot flags := by
  refine ⟨aligned, below, fun p inside => ?_, fun p inside => ?_⟩
  · obtain ⟨j, before, rfl, _⟩ := intersects_page a len p aligned below inside
    exact gains.lacked j (List.mem_range.mpr before)
  · obtain ⟨j, before, rfl, small, page⟩ := intersects_page a len p aligned below inside
    obtain ⟨paddr, pattr, attr, clean, entry⟩ := leafOf j _ small page (gains.entry j (List.mem_range.mpr before))
    exact ⟨perm, pattr, known, attr, by rw [entry, userLeaf_attrs paddr clean perm pattr attr]⟩

/-- sys_mmap keeps its promise exactly where the length does not wrap around and the range that it takes is whole pages
below 2^48. -/
theorem sysMmap_promise (fuel : Nat) (k k' : Kernel) (t addr len a : Word) (prot flags : Int) (tree : TableTree k t)
    (good : MmapOk a) (given : sysMmap fuel k t addr len prot flags = some (.ok (a, k'))) :
    MmapPromise k.mem k'.mem t a len prot flags ↔ MmapFits k.mem t addr len flags := by
  obtain ⟨wf, pos, layout, root⟩ := tree
  have process : Process k pos t := ⟨wf, layout, root⟩
  obtain ⟨perm, known, ⟨rfl, done⟩ | ⟨rfl, done⟩⟩ := sysMmap_given good given
  · obtain ⟨⟨n, first, here⟩, gains⟩ := mapAnonymous_given process good.2.1 done
    have hint := anonymousHint_aligned addr
    have aligned : a.toNat % 4096 = 0 := by
      rw [here]
      exact pageAt_aligned _ _ hint
    rw [MmapFits, if_neg (by decide), windowAhead_iff _ _ _ _ n hint first, ← here]
    constructor
    · intro promise
      have below := promise.below
      have count := memSizeToPages_toNat len (by omega)
      omega
    · rintro ⟨small, below⟩
      have count := memSizeToPages_toNat len small
      exact promise_of_gains perm known aligned (by omega) gains fun _ _ _ _ leaf => leaf
  · obtain ⟨rfl, gains⟩ := mapDevice_given process good.2.1 done
    rw [MmapFits, if_pos rfl]
    refine ⟨fun promise => ⟨promise.aligned, promise.below⟩, fun ⟨aligned, below⟩ => ?_⟩
    refine promise_of_gains perm known aligned below gains fun j e small page leaf => ?_
    obtain ⟨pattr, attr, rfl⟩ := leaf
    exact ⟨pageAt a j, pattr, attr, and_vaddrMask _ page small, rfl⟩

theorem sysMmap_promise_onePage : ∃ k',
    sysMmap 2 (machine (onePage 0) [20, 21]) (poolVa 4) 0 0x2000 3 mapAnonymousFlag = some (.ok (0x201000, k')) ∧
      MmapPromise (machine (onePage 0) [20, 21]).mem k'.mem (poolVa 4) 0x201000 0x2000 3 mapAnonymousFlag := by
  obtain ⟨⟨a, k'⟩, given, check⟩ := returns_of_any
    (sysMmap 2 (machine (onePage 0) [20, 21]) (poolVa 4) 0 0x2000 3 mapAnonymousFlag) (fun r => r.1 == 0x201000)
    (by decide +kernel)
  obtain rfl : a = 0x201000 := beq_iff_eq.mp check
  refine ⟨k', given, (sysMmap_promise 2 _ k' (poolVa 4) 0 0x2000 0x201000 3 mapAnonymousFlag
    (onePage_tree 0 [20, 21] (by decide +kernel)) ⟨by decide, by decide, by decide⟩ given).mpr ?_⟩
  rw [MmapFits, if_neg (by decide)]
  exact ⟨by decide, .inl ⟨1, by decide, by decide +kernel⟩⟩

/-- Bit 55 of a device address is the reference counter of its page. -/
theorem device_address_counts : ¬ ∀ (fuel : Nat) (k k' : Kernel) (t addr len a : Word) (prot flags : Int), TableTree k t →
    MmapOk a → sysMmap fuel k t addr len prot flags = some (.ok (a, k')) →
      MmapPromise k.mem k'.mem t a len prot flags := by
  intro claim
  obtain ⟨⟨a, k'⟩, given, check⟩ := returns_of_any
    (sysMmap 1 (machine (onePage 0) [20, 21, 22, 23]) (poolVa 4) 0x0080000040000000 0x1000 3 mapDeviceFlag)
    (fun r => r.1 == 0x0080000040000000 &&
      refCount (userEntry r.2.mem (poolVa 4) 0x0080000040000000 &&& ~~~vaddrMask) == 1) (by decide +kernel)
  rw [Bool.and_eq_true] at check
  obtain rfl : a = 0x0080000040000000 := beq_iff_eq.mp check.1
  obtain ⟨perm, pattr, known, attr, entry⟩ := (claim _ _ k' _ _ _ _ _ _ (onePage_tree 0 [20, 21, 22, 23]
    (by decide +kernel)) ⟨by decide, by decide, by decide⟩ given).leaf 0x0080000040000000 (by unfold Intersects; decide)
  obtain rfl : MemPerm.rw = perm := Option.some.inj known
  obtain rfl : attApRwRw ||| attPxnNoexec ||| attUxnNoexec = pattr := Option.some.inj attr
  have counted := beq_iff_eq.mp check.2
  rw [entry] at counted
  exact absurd counted (by decide)

end Anthill
