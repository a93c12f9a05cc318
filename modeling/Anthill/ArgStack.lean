import Anthill.TaskExec

set_option autoImplicit false

namespace Anthill

open Radix Bytes

-- The address is on the page of `stack`.
def SamePage (stack a : Word) : Prop := a.toNat / 4096 = stack.toNat / 4096

-- The process reads the bytes from `a` on.
def Reads (k : Kernel) (t a : Word) (bytes : List (BitVec 8)) : Prop :=
  ∀ j byte, bytes[j]? = some byte → userByte k t (a + BitVec.ofNat 64 j) = some byte

-- No address is in both blocks.
def BlocksApart (x y : Word × Nat) : Prop := x.1.toNat + x.2 ≤ y.1.toNat ∨ y.1.toNat + y.2 ≤ x.1.toNat

-- argc, the pointers with the NULL after them, and the copies that they point to.
def argBlocks (sp : Word) (args : List (List CChar)) (ptrs : List Word) : List (Word × Nat) :=
  (sp, 8) :: (sp + 8, 8 * (args.length + 1)) :: ptrs.zip (args.map fun arg => arg.length + 1)

/-- The stack that a program finds when it starts. -/
structure ArgsLaidOut (k : Kernel) (t stackAddr sp : Word) (args : List (List CChar)) (ptrs : List Word) : Prop where
  count : ptrs.length = args.length
  argc : Reads k t sp (split (BitVec.ofNat 64 args.length) 8)
  pointers : ∀ (i : Nat) (ptr : Word), ptrs[i]? = some ptr → Reads k t (sp + 8 + 8 * BitVec.ofNat 64 i) (split ptr 8)
  null : Reads k t (sp + 8 + 8 * BitVec.ofNat 64 args.length) (split (0 : Word) 8)
  copies : ∀ (i : Nat) (ptr : Word) (arg : List CChar), ptrs[i]? = some ptr → args[i]? = some arg → Reads k t ptr (cString arg)
  apart : (argBlocks sp args ptrs).Pairwise BlocksApart
  inside : ∀ store, store ∈ stackStores stackAddr args → ∀ j, j < store.2.length →
    SamePage stackAddr (store.1 + BitVec.ofNat 64 j)

-- The bytes of the copies, before and after they are rounded up.
def argBytes (args : List (List CChar)) : Nat := (args.map fun arg => arg.length + 1).sum

def argRoom (args : List (List CChar)) : Nat := (argBytes args + 7) / 8 * 8

/-- The stack's page is one of the process, what is written needs no more than the page, and the bytes that round it up
make good for the page not starting at stack_addr. -/
structure ArgsFit (stackAddr : Word) (args : List (List CChar)) : Prop where
  user : stackAddr.toNat < 2 ^ 48
  top : argBytes args + stackAddr.toNat % 4096 ≤ argRoom args
  bottom : argRoom args + 8 * (args.length + 2) ≤ 4096 + stackAddr.toNat % 4096

theorem argSize_eq (args : List (List CChar)) : argSize args = BitVec.ofNat 64 (argRoom args) := by
  have sum (size : Word) : args.foldl (fun size arg => size + (BitVec.ofNat 64 arg.length + 1)) size =
      size + BitVec.ofNat 64 (argBytes args) := by
    induction args generalizing size with
    | nil => simp [argBytes]
    | cons arg args ih =>
      have one : (1 : Word) = BitVec.ofNat 64 1 := rfl
      rw [List.foldl_cons, ih, argBytes, argBytes, List.map_cons, List.sum_cons, one, ← BitVec.ofNat_add,
        BitVec.add_assoc, ← BitVec.ofNat_add]
  have value : (BitVec.ofNat 64 (argBytes args) % 8).toNat = argBytes args % 8 := by
    rw [BitVec.toNat_umod, BitVec.toNat_ofNat, show (8 : Word).toNat = 8 from rfl]
    omega
  rw [argSize, sum, zero_add]
  apply BitVec.eq_of_toNat_eq
  by_cases whole : argBytes args % 8 = 0
  · have zero : BitVec.ofNat 64 (argBytes args) % 8 = 0 := BitVec.eq_of_toNat_eq (value.trans whole)
    rw [if_neg (not_not.mpr zero), argRoom, BitVec.toNat_ofNat, BitVec.toNat_ofNat]
    omega
  · have some : BitVec.ofNat 64 (argBytes args) % 8 ≠ 0 := by
      intro zero
      rw [zero] at value
      exact whole value.symm
    rw [if_pos some, BitVec.toNat_add, BitVec.toNat_sub, value, argRoom, BitVec.toNat_ofNat, BitVec.toNat_ofNat,
      show (8 : Word).toNat = 8 from rfl]
    omega

theorem cString_length (arg : List CChar) : (cString arg).length = arg.length + 1 := by
  rw [cString, List.length_append, List.length_map, List.length_singleton]

theorem samePage_index {stack a : Word} (same : SamePage stack a) : mmuGetTableIdx a = mmuGetTableIdx stack := by
  rw [userPage_eq, userPage, userPage, same]

/-- A block whose bytes are all on one page ends on it. -/
theorem samePage_block (stack a : Word) (n : Nat) (much : 0 < n)
    (inside : ∀ j, j < n → SamePage stack (a + BitVec.ofNat 64 j)) :
    SamePage stack a ∧ a.toNat % 4096 + n ≤ 4096 := by
  have first : SamePage stack a := by simpa using inside 0 much
  refine ⟨first, ?_⟩
  by_contra beyond
  have next := inside (4096 - a.toNat % 4096) (by omega)
  rw [SamePage, BitVec.toNat_add, BitVec.toNat_ofNat] at next
  rw [SamePage] at first
  have small := a.isLt
  have small' := stack.isLt
  omega

section StackPage

/-- The page that the process has at `stack`, with what its bytes are. -/
structure StackPage (k : Kernel) (pos : Pos) (t stack va : Word) (m : Store) : Prop where
  process : Process k pos t
  outside : pos va = none
  sees : node nav k.mem t (mmuGetTableIdx stack) = some va
  used : InUse k va
  ap : apBits (userEntry k.mem t stack) = attApRwRw
  bytes : ∀ b, b < 4096 → pageByte (k.mem va) b = m b

variable {k : Kernel} {pos : Pos} {t stack va : Word} {m : Store}

theorem StackPage.reads (page : StackPage k pos t stack va m) (a : Word) (bytes : List (BitVec 8))
    (same : SamePage stack a) (inside : a.toNat % 4096 + bytes.length ≤ 4096)
    (content : m.bytes (a.toNat % 4096) bytes.length = bytes) : Reads k t a bytes := by
  intro j byte here
  have before : j < bytes.length := (List.getElem?_eq_some_iff.mp here).1
  have small := a.isLt
  have value : (a + BitVec.ofNat 64 j).toNat = a.toNat + j := by
    rw [SamePage] at same
    have small' := stack.isLt
    rw [BitVec.toNat_add, BitVec.toNat_ofNat]
    omega
  have same' : SamePage stack (a + BitVec.ofNat 64 j) := by
    rw [SamePage, value]
    rw [SamePage] at same
    omega
  have place : (a + BitVec.ofNat 64 j).toNat % 4096 = a.toNat % 4096 + j := by omega
  have read := Store.bytes_get m (a.toNat % 4096) bytes.length j before
  rw [content, here] at read
  rw [userByte, byteAt, samePage_index same', page.sees, Option.map_some, place, page.bytes _ (by omega)]
  exact read.symm

theorem StackPage.byte (page : StackPage k pos t stack va m) (a : Word) (byte : BitVec 8) (same : SamePage stack a)
    (user : a.toNat < 2 ^ 48) :
    ∃ k', storeByte t k a byte = .ok k' ∧ StackPage k' pos t stack va (m.set (a.toNat % 4096) byte) := by
  have path := samePage_index same
  have low : a.toNat % 4096 < 4096 := Nat.mod_lt _ (by decide)
  have rw' : apBits (userEntry k.mem t a) = attApRwRw := by rw [userEntry_congr _ _ _ _ path, page.ap]
  refine ⟨k.writePage va (copyBytes (k.mem va) (a.toNat % 4096) [byte]), ?_, ?_⟩
  · simp only [storeByte, path, page.sees, rw', user, true_and, or_true, if_true]
  · have keep (p : Word) (r : List Idx) (position : pos p = some r) :
        (k.writePage va (copyBytes (k.mem va) (a.toNat % 4096) [byte])).mem p = k.mem p :=
      putPage_other _ _ _ _ fun same => by
        rw [same, page.outside] at position
        cases position
    have same' := sameKernel_putPage k va (copyBytes (k.mem va) (a.toNat % 4096) [byte]) page.used.2
    refine ⟨page.process.twin same' keep, page.outside, ?_, (same'.inUse va).mpr page.used, ?_, fun b inside => ?_⟩
    · rw [page.process.twin_walk keep _ (by simp [mmuGetTableIdx]), page.sees]
    · rw [page.process.entries_keep keep, page.ap]
    · rw [Kernel.writePage_mem, putPage_same, pageByte_copyBytes _ _ _ b inside, Store.set, page.bytes b inside]
      by_cases here : b = a.toNat % 4096
      · subst here
        simp
      · rw [if_neg here]
        split_ifs with after
        · rw [List.getD_eq_getElem?_getD, List.getElem?_eq_none (by simp; omega), Option.getD_none]
        · rfl

theorem StackPage.block (bytes : List (BitVec 8)) :
    ∀ (k : Kernel) (m : Store) (a : Word), StackPage k pos t stack va m → SamePage stack a → a.toNat < 2 ^ 48 →
      a.toNat % 4096 + bytes.length ≤ 4096 →
        ∃ k', storeBytes t k a bytes = .ok k' ∧ StackPage k' pos t stack va (m.write (a.toNat % 4096) bytes) := by
  induction bytes with
  | nil => exact fun k m a page _ _ _ => ⟨k, rfl, page⟩
  | cons byte bytes ih =>
    intro k m a page same user inside
    obtain ⟨k₁, stored, page₁⟩ := page.byte a byte same user
    rw [storeBytes, stored, Store.write]
    rw [List.length_cons] at inside
    cases bytes with
    | nil => exact ⟨k₁, rfl, page₁⟩
    | cons next bytes =>
      have value : (a + 1).toNat = a.toNat + 1 := by
        rw [BitVec.toNat_add, show (1 : Word).toNat = 1 from rfl]
        omega
      rw [List.length_cons] at inside
      rw [SamePage] at same
      have place : (a + 1).toNat % 4096 = a.toNat % 4096 + 1 := by omega
      rw [← place]
      refine ih k₁ _ (a + 1) page₁ ?_ ?_ ?_
      · rw [SamePage]
        omega
      · rw [value]
        omega
      · rw [place, List.length_cons]
        omega

/-- Stores that stay on the stack's page are made, and leave all the rest of the process as it is. -/
theorem StackPage.stores (stores : List (Word × List (BitVec 8))) (user : stack.toNat < 2 ^ 48)
    (inside : ∀ s, s ∈ stores → SamePage stack s.1 ∧ s.1.toNat % 4096 + s.2.length ≤ 4096) :
    ∀ (k : Kernel) (m : Store), StackPage k pos t stack va m → ∃ k', storeAll t k stores = .ok k' ∧
      StackPage k' pos t stack va (m.writeAll (stores.map fun s => (s.1.toNat % 4096, s.2))) := by
  induction stores with
  | nil => exact fun k m page => ⟨k, rfl, page⟩
  | cons s stores ih =>
    intro k m page
    obtain ⟨same, ends⟩ := inside s List.mem_cons_self
    have below : s.1.toNat < 2 ^ 48 := by
      rw [SamePage] at same
      omega
    obtain ⟨k₁, stored, page₁⟩ := StackPage.block s.2 k m s.1 page same below ends
    rw [storeAll, stored]
    exact ih (fun s listed => inside s (List.mem_cons_of_mem _ listed)) k₁ _ page₁

end StackPage

-- The addresses of the copies.
def argPtrs : List (List CChar) → Word → List Word
  | [], _ => []
  | arg :: args, argPos => argPos :: argPtrs args (argPos + (BitVec.ofNat 64 arg.length + 1))

theorem argBytes_cons (arg : List CChar) (args : List (List CChar)) :
    argBytes (arg :: args) = arg.length + 1 + argBytes args := by
  rw [argBytes, argBytes, List.map_cons, List.sum_cons]

theorem argPos_next (a : Word) (n : Nat) (small : a.toNat + (n + 1) < 2 ^ 64) :
    (a + (BitVec.ofNat 64 n + 1)).toNat = a.toNat + (n + 1) := by
  have one : (1 : Word).toNat = 1 := rfl
  rw [BitVec.toNat_add, BitVec.toNat_add, BitVec.toNat_ofNat, one]
  omega

theorem argv_next (a : Word) (small : a.toNat + 8 < 2 ^ 64) : (a + 8).toNat = a.toNat + 8 := by
  have eight : (8 : Word).toNat = 8 := rfl
  rw [BitVec.toNat_add, eight]
  omega

theorem array_next (argv : Word) (i : Nat) :
    argv + 8 * BitVec.ofNat 64 (i + 1) = argv + 8 + 8 * BitVec.ofNat 64 i := by
  have one : BitVec.ofNat 64 1 = (1 : Word) := rfl
  rw [BitVec.ofNat_add, one]
  ring

theorem argPtrs_length (args : List (List CChar)) : ∀ argPos : Word, (argPtrs args argPos).length = args.length := by
  induction args with
  | nil => exact fun _ => rfl
  | cons arg args ih => exact fun argPos => congrArg (· + 1) (ih _)

/-- What the loop stores for argument `i`. -/
theorem argStores_each (args : List (List CChar)) :
    ∀ (argPos argv : Word) (i : Nat) (ptr : Word), (argPtrs args argPos)[i]? = some ptr →
      (argv + 8 * BitVec.ofNat 64 i, split ptr 8) ∈ argStores args argPos argv ∧
        ∀ arg, args[i]? = some arg → (ptr, cString arg) ∈ argStores args argPos argv := by
  induction args with
  | nil =>
    intro argPos argv i ptr here
    cases here
  | cons arg args ih =>
    intro argPos argv i ptr here
    rw [argStores]
    cases i with
    | zero =>
      cases here
      refine ⟨by simp, fun arg' here' => ?_⟩
      cases here'
      simp
    | succ i =>
      obtain ⟨pointer, copy⟩ := ih _ (argv + 8) i ptr here
      rw [array_next]
      exact ⟨List.mem_cons_of_mem _ (List.mem_cons_of_mem _ pointer), fun arg' here' =>
        List.mem_cons_of_mem _ (List.mem_cons_of_mem _ (copy arg' here'))⟩

theorem argStores_null (args : List (List CChar)) : ∀ argPos argv : Word,
    (argv + 8 * BitVec.ofNat 64 args.length, split (0 : Word) 8) ∈ argStores args argPos argv := by
  induction args with
  | nil => exact fun argPos argv => by simp [argStores]
  | cons arg args ih =>
    intro argPos argv
    rw [argStores, List.length_cons, array_next]
    exact List.mem_cons_of_mem _ (List.mem_cons_of_mem _ (ih _ _))

-- The store is of some bytes, all of them between the two addresses.
def StoredWithin (store : Word × List (BitVec 8)) (first last : Nat) : Prop :=
  0 < store.2.length ∧ first ≤ store.1.toNat ∧ store.1.toNat + store.2.length ≤ last

/-- The loop stores to the array and to the room for the copies, to each of their bytes once. -/
theorem argStores_spread (args : List (List CChar)) : ∀ argPos argv : Word,
    argv.toNat + 8 * (args.length + 1) ≤ argPos.toNat → argPos.toNat + argBytes args < 2 ^ 64 →
      (∀ s, s ∈ argStores args argPos argv → StoredWithin s argPos.toNat (argPos.toNat + argBytes args) ∨
        StoredWithin s argv.toNat (argv.toNat + 8 * (args.length + 1))) ∧
      (argStores args argPos argv).Pairwise fun s s' =>
        s.1.toNat + s.2.length ≤ s'.1.toNat ∨ s'.1.toNat + s'.2.length ≤ s.1.toNat := by
  induction args with
  | nil =>
    intro argPos argv below small
    refine ⟨fun s listed => .inr ?_, List.pairwise_singleton _ _⟩
    rw [argStores, List.mem_singleton] at listed
    subst listed
    rw [StoredWithin, length_split]
    exact ⟨by decide, le_rfl, le_rfl⟩
  | cons arg args ih =>
    intro argPos argv below small
    rw [List.length_cons] at below ⊢
    rw [argBytes_cons] at small ⊢
    have next := argPos_next argPos arg.length (by omega)
    have next' := argv_next argv (by omega)
    obtain ⟨within, apart⟩ := ih (argPos + (BitVec.ofNat 64 arg.length + 1)) (argv + 8) (by omega) (by omega)
    rw [argStores]
    have length : (split argPos 8).length = 8 := length_split argPos 8
    have long := cString_length arg
    constructor
    · intro s listed
      rcases List.mem_cons.mp listed with rfl | listed
      · refine .inl ⟨by dsimp only; omega, le_rfl, ?_⟩
        dsimp only
        omega
      · rcases List.mem_cons.mp listed with rfl | listed
        · refine .inr ⟨by dsimp only; omega, le_rfl, ?_⟩
          dsimp only
          omega
        · refine (within s listed).imp (fun ⟨much, low, high⟩ => ⟨much, by omega, by omega⟩) fun ⟨much, low, high⟩ =>
            ⟨much, by omega, by omega⟩
    · refine List.pairwise_cons.mpr ⟨fun s listed => ?_, List.pairwise_cons.mpr ⟨fun s listed => ?_, apart⟩⟩
      · rcases List.mem_cons.mp listed with rfl | listed
        · refine .inr ?_
          dsimp only
          omega
        · dsimp only
          rcases within s listed with ⟨_, low, high⟩ | ⟨_, low, high⟩
          · exact .inl (by omega)
          · exact .inr (by omega)
      · dsimp only
        rcases within s listed with ⟨_, low, high⟩ | ⟨_, low, high⟩ <;> exact .inl (by omega)

theorem argPtrs_spread (args : List (List CChar)) : ∀ argPos : Word, argPos.toNat + argBytes args < 2 ^ 64 →
    (∀ b, b ∈ (argPtrs args argPos).zip (args.map fun arg => arg.length + 1) →
      argPos.toNat ≤ b.1.toNat ∧ b.1.toNat + b.2 ≤ argPos.toNat + argBytes args) ∧
    ((argPtrs args argPos).zip (args.map fun arg => arg.length + 1)).Pairwise BlocksApart := by
  induction args with
  | nil =>
    intro argPos _
    refine ⟨fun b listed => ?_, List.Pairwise.nil⟩
    cases listed
  | cons arg args ih =>
    intro argPos small
    rw [argBytes_cons] at small ⊢
    have next := argPos_next argPos arg.length (by omega)
    obtain ⟨within, apart⟩ := ih (argPos + (BitVec.ofNat 64 arg.length + 1)) (by omega)
    rw [argPtrs, List.map_cons, List.zip_cons_cons]
    constructor
    · intro b listed
      rcases List.mem_cons.mp listed with rfl | listed
      · exact ⟨le_rfl, by dsimp only; omega⟩
      · have here := within b listed
        omega
    · refine List.pairwise_cons.mpr ⟨fun b listed => ?_, apart⟩
      have here := within b listed
      rw [BlocksApart]
      dsimp only
      omega

/-- If all that the loop stores is on one page, the array and the copies are. -/
theorem argStores_page (stack : Word) (args : List (List CChar)) : ∀ argPos argv : Word,
    (∀ s, s ∈ argStores args argPos argv → ∀ j, j < s.2.length → SamePage stack (s.1 + BitVec.ofNat 64 j)) →
      (SamePage stack argv ∧ argv.toNat % 4096 + 8 * (args.length + 1) ≤ 4096) ∧
        (args ≠ [] → SamePage stack argPos ∧ argPos.toNat % 4096 + argBytes args ≤ 4096) := by
  induction args with
  | nil =>
    intro argPos argv inside
    refine ⟨samePage_block stack argv 8 (by decide) fun j before => ?_, fun some => absurd rfl some⟩
    exact inside (argv, split (0 : Word) 8) (by simp [argStores]) j (by rwa [length_split])
  | cons arg args ih =>
    intro argPos argv inside
    rw [argStores] at inside
    have copy := samePage_block stack argPos (arg.length + 1) (by omega) fun j before =>
      inside (argPos, cString arg) List.mem_cons_self j (by rwa [cString_length])
    have pointer := samePage_block stack argv 8 (by decide) fun j before =>
      inside (argv, split argPos 8) (List.mem_cons_of_mem _ List.mem_cons_self) j (by rwa [length_split])
    obtain ⟨array, copies⟩ := ih (argPos + (BitVec.ofNat 64 arg.length + 1)) (argv + 8) fun s listed =>
      inside s (List.mem_cons_of_mem _ (List.mem_cons_of_mem _ listed))
    have one : (1 : Word).toNat = 1 := rfl
    have eight : (8 : Word).toNat = 8 := rfl
    have small := argv.isLt
    have small' := argPos.isLt
    have small'' := stack.isLt
    simp only [SamePage, BitVec.toNat_add, BitVec.toNat_ofNat, one, eight] at copy pointer array copies ⊢
    rw [List.length_cons, argBytes_cons]
    refine ⟨⟨pointer.1, by omega⟩, fun _ => ⟨copy.1, ?_⟩⟩
    by_cases last : args = []
    · subst last
      have none : argBytes [] = 0 := rfl
      omega
    · have rest := copies last
      omega

-- Where the parts of arguments that fit are.
theorem stack_places (stackAddr : Word) (args : List (List CChar)) (fit : ArgsFit stackAddr args) :
    (argPos stackAddr args).toNat = stackAddr.toNat + 4096 - argRoom args ∧
      (argArray stackAddr args).toNat = stackAddr.toNat + 4096 - argRoom args - 8 * (args.length + 1) ∧
      (argStack stackAddr args).toNat = stackAddr.toNat + 4096 - argRoom args - 8 * (args.length + 2) := by
  obtain ⟨user, top, bottom⟩ := fit
  have size : pageSize.toNat = 4096 := rfl
  have one : (1 : Word).toNat = 1 := rfl
  have eight : (8 : Word).toNat = 8 := rfl
  have pos : (argPos stackAddr args).toNat = stackAddr.toNat + 4096 - argRoom args := by
    rw [argPos, argSize_eq, BitVec.toNat_sub, BitVec.toNat_add, BitVec.toNat_ofNat, size]
    omega
  have array : (argArray stackAddr args).toNat = stackAddr.toNat + 4096 - argRoom args - 8 * (args.length + 1) := by
    rw [argArray, BitVec.toNat_sub, BitVec.toNat_mul, BitVec.toNat_add, BitVec.toNat_ofNat, pos, one, eight]
    omega
  refine ⟨pos, array, ?_⟩
  rw [argStack, BitVec.toNat_sub, array, eight]
  omega

theorem argBytes_le (args : List (List CChar)) : argBytes args ≤ argRoom args := by
  rw [argRoom]
  omega

/-- The stores of arguments that fit are on the stack's page, and do not overlap. -/
theorem stackStores_fit (stackAddr : Word) (args : List (List CChar)) (fit : ArgsFit stackAddr args) :
    (∀ s, s ∈ stackStores stackAddr args → SamePage stackAddr s.1 ∧ s.1.toNat % 4096 + s.2.length ≤ 4096) ∧
      (stackStores stackAddr args).Pairwise fun s s' =>
        s.1.toNat + s.2.length ≤ s'.1.toNat ∨ s'.1.toNat + s'.2.length ≤ s.1.toNat := by
  obtain ⟨pos, array, stack⟩ := stack_places stackAddr args fit
  obtain ⟨user, top, bottom⟩ := fit
  have le := argBytes_le args
  obtain ⟨within, apart⟩ := argStores_spread args (argPos stackAddr args) (argArray stackAddr args) (by omega) (by omega)
  have long : (split (BitVec.ofNat 64 args.length) 8).length = 8 := length_split _ 8
  rw [stackStores]
  constructor
  · intro s listed
    rw [SamePage]
    rcases List.mem_cons.mp listed with rfl | listed
    · dsimp only
      omega
    · rcases within s listed with ⟨_, low, high⟩ | ⟨_, low, high⟩ <;> omega
  · refine List.pairwise_cons.mpr ⟨fun s listed => .inl ?_, apart⟩
    dsimp only
    rcases within s listed with ⟨_, low, high⟩ | ⟨_, low, high⟩ <;> omega

-- What is stored is stored at addresses that the table translates.
theorem storeBytes_user (t : Word) (bytes : List (BitVec 8)) : ∀ (k k' : Kernel) (a : Word),
    storeBytes t k a bytes = .ok k' → ∀ j, j < bytes.length → (a + BitVec.ofNat 64 j).toNat < 2 ^ 48 := by
  induction bytes with
  | nil => exact fun k k' a _ j before => absurd before (Nat.not_lt_zero j)
  | cons byte bytes ih =>
    intro k k' a stored j before
    rw [storeBytes] at stored
    cases first : storeByte t k a byte with
    | error halt =>
      rw [first] at stored
      cases stored
    | ok k₁ =>
      rw [first] at stored
      cases j with
      | zero =>
        unfold storeByte at first
        cases path : node nav k.mem t (mmuGetTableIdx a) with
        | none =>
          rw [path] at first
          cases first
        | some page =>
          rw [path] at first
          simp only at first
          split_ifs at first with user
          simpa using user.1
      | succ j =>
        have next := ih k₁ k' (a + 1) stored j (by rw [List.length_cons] at before; omega)
        have place : a + BitVec.ofNat 64 (j + 1) = a + 1 + BitVec.ofNat 64 j := by
          have one : BitVec.ofNat 64 1 = (1 : Word) := rfl
          rw [BitVec.ofNat_add, one]
          ring
        rwa [place]

theorem storeAll_first (t : Word) (k k' : Kernel) (a : Word) (bytes : List (BitVec 8))
    (stores : List (Word × List (BitVec 8))) (much : 0 < bytes.length) (stored : storeAll t k ((a, bytes) :: stores) = .ok k') :
    a.toNat < 2 ^ 48 := by
  rw [storeAll] at stored
  cases first : storeBytes t k a bytes with
  | error halt =>
    rw [first] at stored
    cases stored
  | ok k₁ => simpa using storeBytes_user t bytes k k₁ a first 0 much

/-- Arguments whose stores are all made, on the stack's page, fit. -/
theorem args_fit (stackAddr t : Word) (args : List (List CChar)) (k k' : Kernel)
    (stored : storeAll t k (stackStores stackAddr args) = .ok k')
    (inside : ∀ s, s ∈ stackStores stackAddr args → ∀ j, j < s.2.length →
      SamePage stackAddr (s.1 + BitVec.ofNat 64 j)) : ArgsFit stackAddr args := by
  have long : (split (BitVec.ofNat 64 args.length) 8).length = 8 := length_split _ 8
  rw [stackStores] at stored inside
  have user := storeAll_first t k k' _ _ _ (by rw [long]; decide) stored
  have argc := samePage_block stackAddr (argStack stackAddr args) 8 (by decide) fun j before =>
    inside _ List.mem_cons_self j (by rwa [long])
  obtain ⟨array, copies⟩ := argStores_page stackAddr args (argPos stackAddr args) (argArray stackAddr args) fun s listed =>
    inside s (List.mem_cons_of_mem _ listed)
  have size : pageSize.toNat = 4096 := rfl
  have one : (1 : Word).toNat = 1 := rfl
  have eight : (8 : Word).toNat = 8 := rfl
  rw [SamePage] at argc array
  -- The addresses in order, from argc up to the end of the copies.
  have stack : (argArray stackAddr args).toNat = (argStack stackAddr args).toNat + 8 := by
    have back : argArray stackAddr args = argStack stackAddr args + 8 := by
      rw [argStack]
      ring
    rw [back, BitVec.toNat_add, eight]
    omega
  have pos : (argPos stackAddr args).toNat = (argArray stackAddr args).toNat + 8 * (args.length + 1) := by
    have back : argPos stackAddr args = argArray stackAddr args + 8 * (BitVec.ofNat 64 args.length + 1) := by
      rw [argArray]
      ring
    rw [back, BitVec.toNat_add, BitVec.toNat_mul, BitVec.toNat_add, BitVec.toNat_ofNat, one, eight]
    omega
  have room : argBytes args ≤ 4096 ∧ (args = [] → argBytes args = 0) ∧
      (args ≠ [] → (argPos stackAddr args).toNat / 4096 = stackAddr.toNat / 4096 ∧
        (argPos stackAddr args).toNat % 4096 + argBytes args ≤ 4096) := by
    have none : argBytes [] = 0 := rfl
    refine ⟨?_, fun empty => by rw [empty, none], copies⟩
    by_cases empty : args = []
    · rw [empty, none]
      decide
    · have rest := copies empty
      omega
  have end' : (argPos stackAddr args).toNat + argRoom args = stackAddr.toNat + 4096 := by
    have back : argPos stackAddr args + BitVec.ofNat 64 (argRoom args) = stackAddr + pageSize := by
      rw [argPos, argSize_eq]
      ring
    have value := congrArg BitVec.toNat back
    rw [BitVec.toNat_add, BitVec.toNat_add, BitVec.toNat_ofNat, size] at value
    have up : argRoom args ≤ 4096 := by
      rw [argRoom]
      omega
    omega
  have up := argBytes_le args
  refine ⟨by omega, ?_, by omega⟩
  by_cases empty : args = []
  · have nothing := room.2.1 empty
    have rounded : argRoom args = 0 := by rw [argRoom, nothing]
    have none : args.length = 0 := by rw [empty]; rfl
    omega
  · have rest := room.2.2 empty
    omega

theorem stackStores_laid (k : Kernel) (pos : Pos) (t stackAddr va : Word) (m : Store) (args : List (List CChar))
    (fit : ArgsFit stackAddr args) (page : StackPage k pos t stackAddr va m) : ∃ k₁,
      storeAll t k (stackStores stackAddr args) = .ok k₁ ∧
        ArgsLaidOut k₁ t stackAddr (argStack stackAddr args) args (argPtrs args (argPos stackAddr args)) := by
  obtain ⟨inside, apart⟩ := stackStores_fit stackAddr args fit
  obtain ⟨pos', array, stack⟩ := stack_places stackAddr args fit
  obtain ⟨k₁, stored, page₁⟩ := StackPage.stores (stackStores stackAddr args) fit.user inside k m page
  have disjoint : ((stackStores stackAddr args).map fun s => (s.1.toNat % 4096, s.2)).Pairwise fun s s' =>
      s.1 + s.2.length ≤ s'.1 ∨ s'.1 + s'.2.length ≤ s.1 := by
    rw [List.pairwise_map]
    refine apart.imp_of_mem fun {s s'} listed listed' order => ?_
    obtain ⟨same, _⟩ := inside s listed
    obtain ⟨same', _⟩ := inside s' listed'
    rw [SamePage] at same same'
    dsimp only
    omega
  have reads (a : Word) (bytes : List (BitVec 8)) (listed : (a, bytes) ∈ stackStores stackAddr args) :
      Reads k₁ t a bytes := by
    obtain ⟨same, ends⟩ := inside _ listed
    refine page₁.reads a bytes same ends ?_
    exact Store.bytes_writeAll _ disjoint m _ (List.mem_map_of_mem listed)
  have argv : argStack stackAddr args + 8 = argArray stackAddr args := by
    rw [argStack]
    ring
  have each := argStores_each args (argPos stackAddr args) (argArray stackAddr args)
  refine ⟨k₁, stored, argPtrs_length args _, ?_, fun i ptr here => ?_, ?_, fun i ptr arg here here' => ?_, ?_,
    fun s listed j before => ?_⟩
  · exact reads _ _ List.mem_cons_self
  · rw [argv]
    exact reads _ _ (List.mem_cons_of_mem _ (each i ptr here).1)
  · rw [argv]
    exact reads _ _ (List.mem_cons_of_mem _ (argStores_null args _ _))
  · exact reads _ _ (List.mem_cons_of_mem _ ((each i ptr here).2 arg here'))
  · have le := argBytes_le args
    obtain ⟨user, top, bottom⟩ := fit
    obtain ⟨within, ordered⟩ := argPtrs_spread args (argPos stackAddr args) (by omega)
    rw [argBlocks, argv]
    refine List.pairwise_cons.mpr ⟨fun b listed => .inl ?_, List.pairwise_cons.mpr ⟨fun b listed => .inl ?_, ordered⟩⟩
    · dsimp only
      rcases List.mem_cons.mp listed with rfl | listed
      · dsimp only
        omega
      · have here := within b listed
        omega
    · have here := within b listed
      dsimp only
      omega
  · obtain ⟨same, ends⟩ := inside s listed
    have small := fit.user
    rw [SamePage] at same ⊢
    rw [BitVec.toNat_add, BitVec.toNat_ofNat]
    omega

end Anthill
