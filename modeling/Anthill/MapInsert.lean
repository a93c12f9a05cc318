import Anthill.UnmapPage

set_option autoImplicit false

namespace Anthill

open Radix

-- The bits of an entry that say who may do what, and the type of the memory.
def leafPermMask : Word := ((3 : Word) <<< attApOff) ||| attPxnNoexec ||| attUxnNoexec

def memTypeMask : Word := (0xf : Word) <<< 2

/-- The translation tables of `t` form a tree without block entries. -/
def TableTree (k : Kernel) (t : Word) : Prop := KernelWf k ∧ ∃ pos, UserLayout k pos ∧ pos t = some []

/-- What mem_user_map_page is for: the page of `v` is mapped to `paddr` and no other page changes. -/
structure Inserts (k k' : Kernel) (t v paddr : Word) (perm : MemPerm) (attr : MemAttr) : Prop where
  unmapped : memUserGetKaddr k.mem t v = 0
  mapped : memUserGetKaddr k'.mem t v = physToVirt paddr
  perm : userAttr perm = some (userEntry k'.mem t v &&& leafPermMask)
  attr : userEntry k'.mem t v &&& memTypeMask = memAttr attr
  others : ∀ u : Word, u.toNat < 2 ^ 48 → u.toNat / 4096 ≠ v.toNat / 4096 →
    memUserGetKaddr k'.mem t u = memUserGetKaddr k.mem t u
  tree : TableTree k' t

/-- Two canonical addresses have the same indices only in one page. -/
theorem mmuGetTableIdx_page (u v : Word) (smallU : u.toNat < 2 ^ 48) (smallV : v.toNat < 2 ^ 48)
    (same : mmuGetTableIdx u = mmuGetTableIdx v) : u.toNat / 4096 = v.toNat / 4096 := by
  simp only [mmuGetTableIdx_eq, List.cons.injEq, and_true, leafIdx, Fin.ext_iff, tableIdx_val] at same
  omega

theorem userAttr_clear (perm : MemPerm) (pattr : Word) (known : userAttr perm = some pattr) (attr : MemAttr) :
    (pattr ||| memAttr attr) &&& vaddrMask = 0 := by
  cases perm <;> cases known <;> cases attr <;> decide

-- Under a mask that misses the address only the attributes of a leaf count.
theorem userLeaf_and (paddr pattr mask : Word) (page : paddr &&& vaddrMask = paddr) (apart : vaddrMask &&& mask = 0) :
    userLeaf paddr pattr &&& mask = userLeaf 0 pattr &&& mask := by
  have clear : paddr &&& mask = 0 := by
    rw [← page, BitVec.and_assoc, apart]
    exact BitVec.and_zero
  have zero : (0 : Word) &&& mask = 0 := BitVec.zero_and
  simp only [userLeaf, BitVec.and_or_distrib_right, clear, zero]

theorem userLeaf_bits (paddr : Word) (page : paddr &&& vaddrMask = paddr) (perm : MemPerm) (pattr : Word)
    (known : userAttr perm = some pattr) (attr : MemAttr) :
    userLeaf paddr (pattr ||| memAttr attr) &&& leafPermMask = pattr ∧
      userLeaf paddr (pattr ||| memAttr attr) &&& memTypeMask = memAttr attr := by
  rw [userLeaf_and paddr _ leafPermMask page (by decide), userLeaf_and paddr _ memTypeMask page (by decide)]
  cases perm <;> cases known <;> cases attr <;> decide

section Walks

variable {k : Kernel} {pos : Pos} {t : Word} (layout : UserLayout k pos) (root : pos t = some [])

include layout root

theorem getKaddr_congr {k' : Kernel} {pos' : Pos} (layout' : UserLayout k' pos') (root' : pos' t = some []) (u : Word)
    (same : node nav k'.mem t (mmuGetTableIdx u) = node nav k.mem t (mmuGetTableIdx u)) :
    memUserGetKaddr k'.mem t u = memUserGetKaddr k.mem t u := by
  rw [memUserGetKaddr_eq k' pos' layout' t root', memUserGetKaddr_eq k pos layout t root, same]

theorem userEntry_leaf (v level3 : Word) (walk : node nav k.mem t (upperIdx v) = some level3)
    (valid : mmuIsValid (k.mem level3 (leafIdx v)) = true) : userEntry k.mem t v = k.mem level3 (leafIdx v) := by
  rw [userEntry, userWalk_eq k pos layout t root, walk]
  exact if_pos valid

theorem mapped_level3 (v : Word) (mapped : memUserGetKaddr k.mem t v ≠ 0) :
    ∃ level3, node nav k.mem t (upperIdx v) = some level3 ∧ mmuIsValid (k.mem level3 (leafIdx v)) = true := by
  rw [memUserGetKaddr_eq k pos layout t root, node_full] at mapped
  cases walk : node nav k.mem t (upperIdx v) with
  | none =>
    rw [walk] at mapped
    exact absurd rfl mapped
  | some level3 =>
    refine ⟨level3, rfl, ?_⟩
    by_contra invalid
    rw [walk, Option.bind_some, nav_of_invalid _ (Bool.eq_false_iff.mpr invalid)] at mapped
    exact mapped rfl

end Walks

/-- Where the tables are there already, the loop only walks. -/
theorem mapLevels_walk (k : Kernel) (idx : List Idx) (level level3 : Word) (pages : List Word)
    (walk : node nav k.mem level idx = some level3) : mapLevels k level pages idx = .ok (level3, pages, k) := by
  induction idx generalizing level with
  | nil =>
    cases walk
    rfl
  | cons i idx ih =>
    cases valid : mmuIsValid (k.mem level i) with
    | false =>
      rw [node_cons, nav_of_invalid _ valid] at walk
      cases walk
    | true =>
      rw [node_cons, nav_of_valid _ valid] at walk
      rw [mapLevels, mapStep_valid k level pages i valid]
      exact ih _ walk

section Insert

variable {k k' : Kernel} {t v paddr : Word} {perm : MemPerm} {attr : MemAttr}

theorem memUserMapPage_inserts (tree : TableTree k t) (small : v.toNat < 2 ^ 48) (whole : paddr.toNat % 4096 = 0)
    (inside : paddr.toNat < 2 ^ 48) (done : memUserMapPage k t v paddr perm attr = .ok (.ok, k')) :
    Inserts k k' t v paddr perm attr := by
  obtain ⟨wf, pos, layout, root⟩ := tree
  obtain ⟨pattr, pos', a, i, known, mapped⟩ := memUserMapPage_ok k pos t wf layout root v paddr perm attr k' done
  have page : paddr &&& vaddrMask = paddr := and_vaddrMask paddr whole inside
  have root' := mapped.keepsPos t [] root
  have valid := userLeaf_valid paddr (pattr ||| memAttr attr)
  obtain ⟨level3, _, walk, leaf⟩ := mapped.leaf
  have entry : userEntry k'.mem t v = userLeaf paddr (pattr ||| memAttr attr) := by
    rw [userEntry_leaf mapped.layout root' v level3 walk (leaf ▸ valid), leaf]
  obtain ⟨permBits, attrBits⟩ := userLeaf_bits paddr page perm pattr known attr
  have address : mmuGetVaddr (userLeaf paddr (pattr ||| memAttr attr)) = physToVirt paddr := by
    have isPage : IsPage (physToVirt paddr) := by rw [IsPage, virtToPhys_physToVirt, page]
    have leads := userLeaf_vaddr (physToVirt paddr) _ isPage (userAttr_clear perm pattr known attr)
    rwa [virtToPhys_physToVirt] at leads
  constructor
  case unmapped => rw [memUserGetKaddr_eq k pos layout t root, mapped.unmapped, Option.getD_none]
  case mapped =>
    rw [memUserGetKaddr_eq k' pos' mapped.layout t root', mapped.node_here valid, Option.getD_some, address]
  case perm => rw [entry, permBits, known]
  case attr => rw [entry, attrBits]
  case others =>
    intro u canonical other
    refine getKaddr_congr layout root mapped.layout root' u ?_
    have away : mmuGetTableIdx u ≠ mmuGetTableIdx v := fun same =>
      other (mmuGetTableIdx_page u v canonical small same)
    rw [mapped.node_own layout root valid (mmuGetTableIdx u) rfl, if_neg away]
  case tree => exact ⟨mapped.wf, pos', mapped.layout, root'⟩

theorem memUserMapPage_exists (tree : TableTree k t) (pattr : Word) (known : userAttr perm = some pattr)
    (mapped : memUserGetKaddr k.mem t v ≠ 0) : memUserMapPage k t v paddr perm attr = .ok (.memExs, k) := by
  obtain ⟨_, pos, layout, root⟩ := tree
  obtain ⟨level3, walk, valid⟩ := mapped_level3 layout root v mapped
  rw [memUserMapPage, known, mapLevels_walk k _ t level3 [] walk]
  simp only [valid, if_true]
  rfl

/-- mem_user_map_page inserts the page into the map, or says that it is there already and changes nothing. -/
theorem mapPage_inserts (k : Kernel) (t v paddr : Word) (perm : MemPerm) (attr : MemAttr) (tree : TableTree k t)
    (small : v.toNat < 2 ^ 48) (whole : paddr.toNat % 4096 = 0) (inside : paddr.toNat < 2 ^ 48)
    (valid : (userAttr perm).isSome) :
    (∀ k', memUserMapPage k t v paddr perm attr = .ok (.ok, k') → Inserts k k' t v paddr perm attr) ∧
      (memUserGetKaddr k.mem t v ≠ 0 → memUserMapPage k t v paddr perm attr = .ok (.memExs, k)) := by
  obtain ⟨pattr, known⟩ := Option.isSome_iff_exists.mp valid
  exact ⟨fun k' done => memUserMapPage_inserts tree small whole inside done,
    memUserMapPage_exists tree pattr known⟩

end Insert

theorem onePage_tree (ref : Word) (free : List Nat) (fits : Fits (onePage ref) free onePageTables) :
    TableTree (machine (onePage ref) free) (poolVa 4) := by
  have root : posOf onePageTables (poolVa 4) = some [] := by decide +kernel
  have process := machine_process _ _ _ fits _ root
  exact ⟨process.wf, _, process.layout, root⟩

theorem mapPage_inserts_tables : ∃ k',
    memUserMapPage (machine (onePage 0) [20, 21, 22]) (poolVa 4) 0x40000000 (poolPage 9) .rw .norm = .ok (.ok, k') ∧
      Inserts (machine (onePage 0) [20, 21, 22]) k' (poolVa 4) 0x40000000 (poolPage 9) .rw .norm ∧
      memUserMapPage (machine (onePage 0) [20, 21, 22]) (poolVa 4) 0x200000 (poolPage 9) .rw .norm =
        .ok (.memExs, machine (onePage 0) [20, 21, 22]) := by
  have tree := onePage_tree 0 [20, 21, 22] (by decide +kernel)
  obtain ⟨⟨err, k'⟩, done, check⟩ := ok_of_any
    (memUserMapPage (machine (onePage 0) [20, 21, 22]) (poolVa 4) 0x40000000 (poolPage 9) .rw .norm)
    (fun r => r.1 == .ok) (by decide +kernel)
  obtain rfl : err = .ok := by simpa using check
  exact ⟨k', done,
    (mapPage_inserts _ _ _ _ .rw .norm tree (by decide) (by decide) (by decide) rfl).1 k' done,
    (mapPage_inserts _ _ _ _ .rw .norm tree (by decide) (by decide) (by decide) rfl).2 (by decide +kernel)⟩

end Anthill
