import Anthill.ArgStack
import Anthill.TeardownFrees

set_option autoImplicit false

namespace Anthill

open Radix Bytes

theorem rw_apBits (e : Word) (bits : userAttr .rw = some (e &&& leafPermMask)) : apBits e = attApRwRw := by
  have within : e &&& (3 : Word) <<< attApOff = e &&& leafPermMask &&& (3 : Word) <<< attApOff := by
    rw [BitVec.and_assoc]
    rfl
  rw [apBits, within, ← Option.some.inj bits]
  rfl

/-- The image that has been created has a page for the stack, which is no table. -/
theorem loaded_stack {fuel : Nat} {file : ElfFile} {k k' : Kernel} {pos : Pos} {t addr : Word} (process : Process k pos t)
    (loaded : elfCreateProcImage fuel file k t = some (.ok (⟨addr, .ok⟩, k'))) : addr = file.stackAddr ∧
      ∃ pos' va, StackPage k' pos' t file.stackAddr va (fun b => pageByte (k'.mem va) b) := by
  obtain ⟨rfl, _, placed⟩ := (elfCreateProcImage_iff ..).mp loaded
  obtain ⟨k₁, pos₁, again, kept⟩ := process.placed (fun _ never => never.elim) (.refl (fun _ => False) k) file.image k' placed
  obtain rfl := Option.some.inj (placed.symm.trans again)
  obtain ⟨sees, used, outside, _⟩ := kept.placed 0 _ rfl
  obtain ⟨_, _, gains⟩ := placePages_gains file.image process placed
  obtain ⟨_, _, leaf⟩ := gains.entry (.anonymous file.stackAddr .rw) List.mem_cons_self
  exact ⟨rfl, pos₁, _, kept.process, outside, sees, used, rw_apBits _ leaf.bits.1, fun _ _ => rfl⟩

theorem taskExec_loaded {fuel : Nat} {file : ElfFile} {s : Sys} {k k' : Kernel} {addr : Word}
    (args : List (List CChar)) (valid : elfValidate file = .ok)
    (torn : memTableTeardown s.kernel (s.table s.current) = .ok (.ok, k))
    (loaded : elfCreateProcImage fuel file k (s.table s.current) = some (.ok (⟨addr, .ok⟩, k'))) :
    (∀ halt, storeAll (s.table s.current) k' (stackStores addr args) = .error halt →
      taskExec fuel file (some args) s = some (.error halt)) ∧
    ∀ k₁, storeAll (s.table s.current) k' (stackStores addr args) = .ok k₁ → ∃ table s', s'.kernel = k₁ ∧
      physToVirt table = s.table s.current ∧
        taskExec fuel file (some args) s = some (.ok (.started file.eEntry (argStack addr args) table, s')) := by
  have task : s.enter.task s.enter.current = _ := s.enter_current
  have table : s.enter.table s.enter.current = s.table s.current := by
    rw [Sys.table, Sys.table, task]
    rfl
  have kernel : s.enter.kernel = s.kernel := rfl
  unfold taskExec
  simp only [table, kernel, valid, torn, loaded, orPanic, setupArgs]
  refine ⟨fun halt stored => by simp [stored], fun k₁ stored => ?_⟩
  simp only [stored]
  refine ⟨_, _, rfl, ?_, rfl⟩
  simp [Sys.leave, Sys.currentTask, Sys.setTask, Sys.enter, Sys.table]

-- A program finds its arguments, or task_exec returns an error.
def ExecArgs (fuel : Nat) (file : ElfFile) (args : List (List CChar)) (s : Sys) : Prop :=
  (∃ err s', err ≠ .ok ∧ taskExec fuel file (some args) s = some (.ok (.returned err, s'))) ∨
    ∃ sp table ptrs s', taskExec fuel file (some args) s = some (.ok (.started file.eEntry sp table, s')) ∧
      ArgsLaidOut s'.kernel (physToVirt table) file.stackAddr sp args ptrs

section Loaded

variable {fuel : Nat} {file : ElfFile} {s : Sys} {pos : Pos} {k k' : Kernel} {addr : Word} (valid : elfValidate file = .ok)
  (torn : memTableTeardown s.kernel (s.table s.current) = .ok (.ok, k)) (process : Process k pos (s.table s.current))
  (loaded : elfCreateProcImage fuel file k (s.table s.current) = some (.ok (⟨addr, .ok⟩, k')))

include valid torn process loaded

-- task_exec has no check left that could refuse the arguments.
theorem execArgs_fit (args : List (List CChar)) (promise : ExecArgs fuel file args s) : ArgsFit file.stackAddr args := by
  obtain ⟨rfl, _⟩ := loaded_stack process loaded
  obtain ⟨faults, starts⟩ := taskExec_loaded args valid torn loaded
  cases stored : storeAll (s.table s.current) k' (stackStores file.stackAddr args) with
  | error halt =>
    rcases promise with ⟨_, _, _, ended⟩ | ⟨_, _, _, _, ended, _⟩
    · rw [faults halt stored] at ended
      cases ended
    · rw [faults halt stored] at ended
      cases ended
  | ok k₁ =>
    obtain ⟨table, s', _, _, started⟩ := starts k₁ stored
    rcases promise with ⟨_, _, _, ended⟩ | ⟨_, _, _, _, _, laid⟩
    · rw [started] at ended
      cases ended
    · exact args_fit file.stackAddr _ args k' k₁ stored laid.inside

theorem fit_execArgs (args : List (List CChar)) (fit : ArgsFit file.stackAddr args) : ExecArgs fuel file args s := by
  obtain ⟨rfl, pos', va, page⟩ := loaded_stack process loaded
  obtain ⟨_, starts⟩ := taskExec_loaded args valid torn loaded
  obtain ⟨k₁, stored, laid⟩ := stackStores_laid k' pos' _ _ va _ args fit page
  obtain ⟨table, s', kernel, same, started⟩ := starts k₁ stored
  rw [← kernel, ← same] at laid
  exact .inr ⟨_, table, _, s', started, laid⟩

end Loaded

/-- The top-level table that the teardown of a process leaves is a process again, if it shared nothing. -/
theorem UnsharedTree.torn_process {k k' : Kernel} {pos : Pos} {t : Word} (tree : UnsharedTree k pos t) (wf : KernelWf k)
    (torn : memTableTeardown k t = .ok (.ok, k')) : Process k' (fun p => if p = t then some [] else none) t := by
  obtain ⟨k₁, rounds, ran, swept, all⟩ := memTableTeardownLogged_sweeps tree wf
  have same := memTableTeardownLogged_result k t
  rw [ran, torn] at same
  obtain ⟨-, rfl⟩ := Prod.mk.inj (Except.ok.inj same)
  have blank (i : Idx) : mmuIsValid (k₁.mem t i) = false := by
    rw [swept.row]
    split_ifs with gone
    · exact isValid_zero
    · simpa [all i] using gone
  have backed : Backed k₁ t := swept.backed t (tree.backed t [] tree.root) fun j r _ at' below => by
    rw [tree.root] at at'
    cases at'
    exact absurd below.length_le (by simp)
  have position (p : Word) (q : List Idx) (at' : (if p = t then some [] else none) = some q) : p = t ∧ q = [] := by
    split_ifs at at' with here
    cases at'
    exact ⟨here, rfl⟩
  refine ⟨swept.wf, ⟨⟨fun p q at' => ?_, fun p q i c at' _ found => ?_⟩, fun p q at' => ?_, fun p q i at' upper => ?_⟩,
    if_pos rfl⟩
  · rw [(position p q at').2]
    exact Nat.zero_le 3
  · rw [(position p q at').1, nav_of_invalid _ (blank i)] at found
    cases found
  · rw [(position p q at').1]
    exact ⟨backed.marked, fun table => tree.user t [] tree.root ((swept.tables t).mp table)⟩
  · rw [(position p q at').2] at upper
    rcases upper with one | two
    · cases one
    · cases two

/-- Once the image has been created, task_exec keeps its promise exactly for the arguments that fit: it starts the program
with them on its stack's page. For others it writes elsewhere or faults, and never returns an error. -/
theorem taskExec_args (fuel : Nat) (file : ElfFile) (args : List (List CChar)) (s : Sys) (pos : Pos) (k k' : Kernel)
    (addr : Word) (valid : elfValidate file = .ok)
    (torn : memTableTeardown s.kernel (s.table s.current) = .ok (.ok, k))
    (process : Process k pos (s.table s.current))
    (loaded : elfCreateProcImage fuel file k (s.table s.current) = some (.ok (⟨addr, .ok⟩, k'))) :
    ExecArgs fuel file args s ↔ ArgsFit file.stackAddr args :=
  ⟨execArgs_fit valid torn process loaded args, fit_execArgs valid torn process loaded args⟩

-- A file of no segments, whose stack goes to 0x3ff000.
def bareElf : ElfFile := fun a =>
  ([(0, 0x7f), (1, 0x45), (2, 0x4c), (3, 0x46), (16, 2), (18, 0xb7), (32, 64), (82, 0x40)].lookup a.toNat).getD 0

theorem bareElf_loads : ∃ k', elfCreateProcImage (2 ^ 36 + 1) bareElf (oneTask [] [20, 21, 22, 23]).kernel (poolVa 4) =
    some (.ok (⟨bareElf.stackAddr, .ok⟩, k')) := by
  have fits : Fits [] [20, 21, 22, 23] [(4, [])] := by decide +kernel
  have process := machine_process _ _ _ fits (poolVa 4) (by decide +kernel)
  have stocked := machine_stocked [] _ fits.1
  have none (i : Nat) : ¬ bareElf.Loads i := by
    have count : bareElf.ePhnum.toNat = 0 := by decide +kernel
    intro loads
    have inside := loads.1
    omega
  have wellFormed : bareElf.WellFormed := by
    constructor
    case apart => exact fun i _ loads => absurd loads (none i)
    all_goals exact fun i loads => absurd loads (none i)
  obtain ⟨k', -, result⟩ := elfCreateProcImage_returns wellFormed process (by decide +kernel)
    (stocked.allocs _ (by decide +kernel))
  exact ⟨k', result _ (Nat.lt_succ_self _)⟩

theorem bareElf_torn : memTableTeardown (oneTask [] [20, 21, 22, 23]).kernel (poolVa 4) =
    .ok (.ok, (oneTask [] [20, 21, 22, 23]).kernel) :=
  memTableTeardown_empty _ _ (by decide +kernel)

theorem bareElf_process : Process (oneTask [] [20, 21, 22, 23]).kernel (posOf [(4, [])]) (poolVa 4) :=
  machine_process _ _ _ (by decide +kernel) (poolVa 4) (by decide +kernel)

theorem taskExec_args_short : ExecArgs (2 ^ 36 + 1) bareElf [[⟨104, by decide⟩, ⟨105, by decide⟩], []]
    (oneTask [] [20, 21, 22, 23]) := by
  obtain ⟨k', loaded⟩ := bareElf_loads
  refine (taskExec_args _ _ _ _ _ _ k' _ (by decide +kernel) bareElf_torn bareElf_process loaded).mpr ?_
  constructor <;> decide +kernel

-- The string alone takes more than the page.
theorem long_argument_unrefused : ¬ ∀ (fuel : Nat) (file : ElfFile) (args : List (List CChar)) (s : Sys) (pos : Pos)
    (k k' : Kernel) (addr : Word), elfValidate file = .ok →
    memTableTeardown s.kernel (s.table s.current) = .ok (.ok, k) → Process k pos (s.table s.current) →
    elfCreateProcImage fuel file k (s.table s.current) = some (.ok (⟨addr, .ok⟩, k')) → ExecArgs fuel file args s := by
  intro claim
  obtain ⟨k', loaded⟩ := bareElf_loads
  have valid : elfValidate bareElf = .ok := by decide +kernel
  have promise := claim _ _ [List.replicate 4096 ⟨97, by decide⟩] _ _ _ k' _ valid bareElf_torn bareElf_process loaded
  have bottom := (execArgs_fit valid bareElf_torn bareElf_process loaded _ promise).bottom
  have bytes : argBytes [List.replicate 4096 (⟨97, by decide⟩ : CChar)] = 4097 := by
    rw [argBytes, List.map_singleton, List.sum_singleton, List.length_replicate]
  have stack : bareElf.stackAddr.toNat % 4096 = 0 := by decide +kernel
  rw [argRoom, bytes, stack, List.length_singleton] at bottom
  omega

end Anthill
