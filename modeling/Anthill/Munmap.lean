import Anthill.PageOwnership

set_option autoImplicit false

namespace Anthill

-- An address space has this many pages, and no pointer loop over them runs longer.
@[irreducible] def addressPages : Nat := 2 ^ 52

/-- The loop of sys_munmap as its source writes it, with the pages on which it calls
mem_user_unmap_page: `p` moves on by a page while it is below `page_end`, and a panic ends it. -/
def munmapRun (tranTable pageEnd : Word) : Nat → Kernel → Word → List Word × Option (Except Halt Kernel)
  | 0, _, _ => ([], none)
  | fuel + 1, k, p =>
    if p < pageEnd then
      match munmapStep k tranTable p with
      | .error halt => ([p], some (.error halt))
      | .ok k =>
        let rest := munmapRun tranTable pageEnd fuel k (p + pageSize)
        (p :: rest.1, rest.2)
    else ([], some (.ok k))

def munmapVisits (k : Kernel) (tranTable addr len : Word) : List Word :=
  if len = 0 then []
  else (munmapRun tranTable (alignDown (addr + len)) (addressPages + 1) k (alignDown addr)).1

/-- The page at `p` has a byte of the range. -/
def Intersects (addr len p : Word) : Prop :=
  p.toNat % 4096 = 0 ∧ p.toNat < addr.toNat + len.toNat ∧ addr.toNat < p.toNat + 4096

theorem alignDown_toNat (x : Word) : (alignDown x).toNat = x.toNat / 4096 * 4096 := by
  have mask : ∀ i : Fin 64, (~~~(pageSize - 1)).getLsbD i = decide (12 ≤ i.val) := by decide
  have shifted : alignDown x = (x >>> 12) <<< 12 := by
    apply BitVec.eq_of_getLsbD_eq
    intro i inside
    rw [alignDown, BitVec.getLsbD_and, mask ⟨i, inside⟩, BitVec.getLsbD_shiftLeft]
    by_cases low : i < 12
    · simp [low]
    · simp [low, inside, show 12 + (i - 12) = i by omega, Nat.not_lt.mp low]
  rw [shifted, BitVec.toNat_shiftLeft, BitVec.toNat_ushiftRight, Nat.shiftRight_eq_div_pow, Nat.shiftLeft_eq]
  have small := x.isLt
  omega

theorem alignUp_aligned (x : Word) : (alignUp x).toNat % 4096 = 0 := by
  rw [show alignUp x = alignDown (x + pageSize - 1) from rfl, alignDown_toNat]
  omega

theorem anonymousHint_aligned (addr : Word) : (anonymousHint addr).toNat % 4096 = 0 := by
  unfold anonymousHint
  split_ifs
  · exact alignUp_aligned addr
  · decide

theorem pageAt_toNat (p : Word) (n : Nat) : (pageAt p n).toNat = (p.toNat + n * 4096) % 2 ^ 64 := by
  have size : pageSize.toNat = 4096 := by decide
  rw [pageAt, BitVec.toNat_add, BitVec.toNat_mul, BitVec.toNat_ofNat, size]
  have small := p.isLt
  omega

theorem pageAt_aligned (p : Word) (n : Nat) (aligned : p.toNat % 4096 = 0) : (pageAt p n).toNat % 4096 = 0 := by
  rw [pageAt_toNat]
  omega

theorem pageAt_next (p : Word) (n : Nat) : pageAt p n + pageSize = pageAt p (n + 1) := by
  apply BitVec.eq_of_toNat_eq
  have size : pageSize.toNat = 4096 := by decide
  rw [BitVec.toNat_add, pageAt_toNat, pageAt_toNat, size]
  omega

theorem pageAt_zero (p : Word) : pageAt p 0 = p := by
  apply BitVec.eq_of_toNat_eq
  rw [pageAt_toNat]
  have small := p.isLt
  omega

/-- The search for a free range moves in whole pages. -/
theorem memUserFindEmpty_aligned (m : Mem) (tranTable : Word) (pageCnt fuel : Nat) (addr found : Word)
    (aligned : addr.toNat % 4096 = 0) (result : memUserFindEmpty m tranTable pageCnt fuel addr = some found) :
    found.toNat % 4096 = 0 := by
  induction fuel generalizing addr with
  | zero => cases result
  | succ fuel ih =>
    rw [memUserFindEmpty] at result
    split at result
    · cases result
      exact aligned
    · exact ih _ (pageAt_aligned addr _ aligned) result

section Loop

variable (tranTable start pageEnd : Word) (aligned : start.toNat % 4096 = 0) (alignedEnd : pageEnd.toNat % 4096 = 0)

include aligned alignedEnd

/-- From page `i` of the range on, the pointer loop makes the rounds that are left, and ends. -/
theorem munmapRun_loop (count i : Nat) (left : start.toNat + (i + count) * 4096 = pageEnd.toNat) (fuel : Nat)
    (enough : count < fuel) (k : Kernel) :
    (munmapRun tranTable pageEnd fuel k (pageAt start i)).2 = some (munmapLoop tranTable start k i count) ∧
      ∀ k', munmapLoop tranTable start k i count = .ok k' →
        (munmapRun tranTable pageEnd fuel k (pageAt start i)).1 =
          (List.range' i count).map (pageAt start) := by
  have small := pageEnd.isLt
  have here := pageAt_toNat start i
  induction count generalizing i fuel k with
  | zero =>
    obtain ⟨fuel, rfl⟩ : ∃ f, fuel = f + 1 := ⟨fuel - 1, by omega⟩
    have ends : ¬ pageAt start i < pageEnd := by
      rw [BitVec.lt_def]
      omega
    rw [munmapRun, if_neg ends, munmapLoop]
    exact ⟨rfl, fun _ _ => rfl⟩
  | succ count ih =>
    obtain ⟨fuel, rfl⟩ : ∃ f, fuel = f + 1 := ⟨fuel - 1, by omega⟩
    have goes : pageAt start i < pageEnd := by
      rw [BitVec.lt_def]
      omega
    rw [munmapRun, if_pos goes, munmapLoop, pageAt_next]
    cases munmapStep k tranTable (pageAt start i) with
    | error halt => exact ⟨rfl, fun _ done => by cases done⟩
    | ok k =>
      have fewer : start.toNat + (i + 1 + count) * 4096 = pageEnd.toNat := by
        rw [← left, Nat.add_assoc i, Nat.add_comm 1]
      have enough' : count < fuel := Nat.lt_of_succ_lt_succ enough
      obtain ⟨outcome, visits⟩ := ih (i + 1) fewer fuel enough' k (pageAt_toNat start (i + 1))
      refine ⟨outcome, fun k' done => ?_⟩
      rw [List.range'_succ, List.map_cons]
      exact congrArg _ (visits k' done)

end Loop

section Visits

variable {k : Kernel} {tranTable addr len : Word} (inside : addr.toNat + len.toNat < 2 ^ 64)

include inside

theorem range_end : (addr + len).toNat = addr.toNat + len.toNat := by
  rw [BitVec.toNat_add, Nat.mod_eq_of_lt inside]

theorem munmapCount_reaches :
    (alignDown addr).toNat + munmapCount addr len * 4096 = (alignDown (addr + len)).toNat := by
  have start := alignDown_toNat addr
  have stop := alignDown_toNat (addr + len)
  rw [range_end inside] at stop
  have size : pageSize.toNat = 4096 := by decide
  unfold munmapCount
  split_ifs with goes
  · rw [BitVec.lt_def] at goes
    rw [BitVec.toNat_udiv, BitVec.toNat_sub_of_le (by rw [BitVec.le_def]; omega), size]
    omega
  · rw [BitVec.lt_def] at goes
    omega

/-- A call that returns has visited the pages from the start of the first page of the range up to the
start of the page in which the range ends. -/
theorem mem_munmapVisits (some : len ≠ 0) (r : Word × Kernel) (returns : sysMunmap k tranTable addr len = .ok r)
    (p : Word) : p ∈ munmapVisits k tranTable addr len ↔
      p.toNat % 4096 = 0 ∧ (alignDown addr).toNat ≤ p.toNat ∧ p.toNat < (alignDown (addr + len)).toNat := by
  have aligned : (alignDown addr).toNat % 4096 = 0 := by
    rw [alignDown_toNat]
    omega
  have alignedEnd : (alignDown (addr + len)).toNat % 4096 = 0 := by
    rw [alignDown_toNat]
    omega
  have reaches := munmapCount_reaches inside
  have stop := (alignDown (addr + len)).isLt
  have few : munmapCount addr len < addressPages + 1 := by
    unfold addressPages
    omega
  obtain ⟨k', done⟩ : ∃ k', munmapLoop tranTable (alignDown addr) k 0 (munmapCount addr len) = .ok k' := by
    rw [sysMunmap, if_neg some] at returns
    cases loop : munmapLoop tranTable (alignDown addr) k 0 (munmapCount addr len) with
    | error halt =>
      rw [loop] at returns
      cases returns
    | ok k' => exact ⟨k', rfl⟩
  have visits := (munmapRun_loop tranTable (alignDown addr) (alignDown (addr + len)) aligned alignedEnd
    (munmapCount addr len) 0 (by rw [Nat.zero_add, reaches]) (addressPages + 1) few k).2 k' done
  rw [pageAt_zero] at visits
  rw [munmapVisits, if_neg some, visits, List.mem_map]
  constructor
  · rintro ⟨i, listed, rfl⟩
    have bound := (List.mem_range'_1.mp listed).2
    rw [pageAt_toNat]
    omega
  · rintro ⟨whole, low, high⟩
    refine ⟨(p.toNat - (alignDown addr).toNat) / 4096, List.mem_range'_1.mpr ⟨Nat.zero_le _, by omega⟩, ?_⟩
    apply BitVec.eq_of_toNat_eq
    rw [pageAt_toNat]
    omega

theorem munmapVisits_exact (some : len ≠ 0) (r : Word × Kernel)
    (returns : sysMunmap k tranTable addr len = .ok r) :
    (∀ p, p ∈ munmapVisits k tranTable addr len ↔ Intersects addr len p) ↔
      (addr.toNat + len.toNat) % 4096 = 0 := by
  have start := alignDown_toNat addr
  have stop := alignDown_toNat (addr + len)
  rw [range_end inside] at stop
  have positive : 0 < len.toNat := by
    rcases Nat.eq_zero_or_pos len.toNat with zero | positive
    · exact absurd (BitVec.eq_of_toNat_eq zero) some
    · exact positive
  constructor
  · intro exact
    -- The last page of the range is visited, so the range fills it.
    have last := (exact (alignDown (addr + len - 1))).mpr
    have before : (addr + len - 1).toNat = addr.toNat + len.toNat - 1 := by
      have sum := range_end inside
      bv_omega
    have lastPage := alignDown_toNat (addr + len - 1)
    rw [before] at lastPage
    have visited := last ⟨by omega, by omega, by omega⟩
    rw [mem_munmapVisits inside some r returns] at visited
    omega
  · intro whole p
    rw [mem_munmapVisits inside some r returns, Intersects]
    omega

end Visits

/-- sys_mmap returns the errors themselves, so a result that is none of them is an address. -/
def MmapOk (ret : Word) : Prop := ret ≠ einval ∧ ret ≠ enomem ∧ ret ≠ enotsup

theorem anonymousLoop_ret (tranTable vaddr : Word) (perm : MemPerm) (count i : Nat) (k k' : Kernel) (ret : Word)
    (result : anonymousLoop tranTable vaddr perm k i count = .ok (ret, k')) : ret = vaddr ∨ ret = enomem := by
  induction count generalizing i k with
  | zero =>
    cases result
    exact .inl rfl
  | succ count ih =>
    rw [anonymousLoop] at result
    cases step : anonymousStep k tranTable (pageAt vaddr i) perm with
    | ok k =>
      rw [step] at result
      exact ih (i + 1) k result
    | error early =>
      rw [step] at result
      simp only [] at result
      subst result
      unfold anonymousStep at step
      split at step
      · split at step <;> cases step
        exact .inr rfl
      · cases step
        exact .inr rfl
      · cases step

theorem sysMmap_aligned (fuel : Nat) (k k' : Kernel) (tranTable hint len ret : Word) (prot : Int)
    (result : sysMmap fuel k tranTable hint len prot mapAnonymousFlag = some (.ok (ret, k'))) (good : MmapOk ret) :
    ret.toNat % 4096 = 0 ∧ ret ≠ 0 := by
  unfold sysMmap at result
  by_cases zero : len = 0
  · rw [if_pos zero] at result
    cases result
    exact absurd rfl good.1
  · rw [if_neg zero] at result
    split at result
    · cases result
      exact absurd rfl good.2.2
    next perm _ =>
      rw [if_pos rfl] at result
      unfold mapAnonymous at result
      simp only [] at result
      split at result
      · cases result
      next vaddr found =>
        have page := memUserFindEmpty_aligned _ _ _ _ _ _ (anonymousHint_aligned hint) found
        split_ifs at result with null
        · cases result
          exact absurd rfl good.2.1
        · rcases anonymousLoop_ret _ _ _ _ _ _ _ _ (Option.some.inj result) with rfl | rfl
          · exact ⟨page, null⟩
          · exact absurd rfl good.2.1

theorem memSizeToPages_toNat (len : Word) (small : len.toNat + 4095 < 2 ^ 64) :
    (memSizeToPages len).toNat = (len.toNat + 4095) / 4096 := by
  have size : pageSize.toNat = 4096 := by decide
  have down := alignDown_toNat (len + pageSize - 1)
  have sum : (len + pageSize - 1).toNat = len.toNat + 4095 := by
    unfold pageSize
    bv_omega
  rw [sum] at down
  rw [show memSizeToPages len = alignDown (len + pageSize - 1) / pageSize from rfl, BitVec.toNat_udiv, size, down]
  omega

/-- sys_munmap visits every page of the range exactly when the range ends at the end of a page, and every
page of an anonymous mapping exactly when the length of the mapping is whole pages. -/
theorem munmap_visits (k : Kernel) (tranTable addr len : Word) (some : len ≠ 0)
    (inside : addr.toNat + len.toNat < 2 ^ 64) (r : Word × Kernel)
    (returns : sysMunmap k tranTable addr len = .ok r) :
    ((∀ p, p ∈ munmapVisits k tranTable addr len ↔ Intersects addr len p) ↔
      (addr.toNat + len.toNat) % 4096 = 0) ∧
    ∀ fuel k₀ hint prot k₁, MmapOk addr →
      sysMmap fuel k₀ tranTable hint len prot mapAnonymousFlag = .some (.ok (addr, k₁)) →
      ((∀ i, i < (memSizeToPages len).toNat → pageAt addr i ∈ munmapVisits k tranTable addr len) ↔
        len.toNat % 4096 = 0) := by
  refine ⟨munmapVisits_exact inside some r returns, fun fuel k₀ hint prot k₁ good mapped => ?_⟩
  obtain ⟨aligned, nonzero⟩ := sysMmap_aligned fuel k₀ k₁ tranTable hint len addr prot mapped good
  have high : 4096 ≤ addr.toNat := by
    have positive : addr.toNat ≠ 0 := fun zero => nonzero (BitVec.eq_of_toNat_eq zero)
    omega
  have start := alignDown_toNat addr
  have stop := alignDown_toNat (addr + len)
  rw [range_end inside] at stop
  have count := memSizeToPages_toNat len (by omega)
  have positive : len.toNat ≠ 0 := fun zero => some (BitVec.eq_of_toNat_eq zero)
  constructor
  · intro all
    have last := all ((len.toNat - 1) / 4096) (by omega)
    rw [mem_munmapVisits inside some r returns, pageAt_toNat] at last
    omega
  · intro whole i below
    rw [mem_munmapVisits inside some r returns, pageAt_toNat]
    omega

theorem munmap_visits_mapping : ∃ k₁ r,
    sysMmap 4 (machine (onePage 1) [20, 21]) (poolVa 4) 0 0x1000 3 mapAnonymousFlag = some (.ok (0x201000, k₁)) ∧
      sysMunmap k₁ (poolVa 4) 0x201000 0x1000 = .ok r ∧
      pageAt 0x201000 0 ∈ munmapVisits k₁ (poolVa 4) 0x201000 0x1000 := by
  have runs : (sysMmap 4 (machine (onePage 1) [20, 21]) (poolVa 4) 0 0x1000 3 mapAnonymousFlag).any
      (fun result => result.toOption.any fun r =>
        decide (r.1 = 0x201000) && (sysMunmap r.2 (poolVa 4) 0x201000 0x1000).toOption.isSome) = true := by
    decide +kernel
  obtain ⟨result, mapped, after⟩ := (Option.any_eq_true _ _).mp runs
  obtain ⟨⟨ret, k₁⟩, rfl, check⟩ := ok_of_any result _ after
  simp only [Bool.and_eq_true, decide_eq_true_eq, Option.isSome_iff_exists] at check
  obtain ⟨rfl, r, unmapped⟩ := check
  have returns : sysMunmap k₁ (poolVa 4) 0x201000 0x1000 = .ok r := by
    cases done : sysMunmap k₁ (poolVa 4) 0x201000 0x1000 with
    | error halt =>
      rw [done] at unmapped
      cases unmapped
    | ok r' =>
      rw [done] at unmapped
      cases unmapped
      rfl
  exact ⟨k₁, r, mapped, returns, ((munmap_visits k₁ (poolVa 4) 0x201000 0x1000 (by decide) (by decide) r returns).2
    4 _ 0 3 k₁ ⟨by decide, by decide, by decide⟩ mapped).mpr (by decide) 0 (by decide +kernel)⟩

/-- The byte at the start of a page is a range, and its page is not visited. -/
theorem munmap_one_byte : ¬ ∀ (k : Kernel) (tranTable addr len : Word), len ≠ 0 →
    addr.toNat + len.toNat < 2 ^ 64 → ∀ r, sysMunmap k tranTable addr len = .ok r →
    ∀ p, p ∈ munmapVisits k tranTable addr len ↔ Intersects addr len p := by
  intro claim
  have none : munmapCount 0x200000 1 = 0 := by decide +kernel
  have returns (k : Kernel) : sysMunmap k (poolVa 4) 0x200000 1 = .ok (0, k) := by
    rw [sysMunmap, if_neg (by decide), none]
    rfl
  have exact := claim (machine (onePage 1) []) (poolVa 4) 0x200000 1 (by decide) (by decide) _ (returns _)
  have whole := (munmapVisits_exact (by decide) (by decide) _ (returns (machine (onePage 1) []))).mp exact
  exact absurd whole (by decide)

end Anthill
