import Anthill.ElfLoad
import Anthill.ForkFailure

set_option autoImplicit false

namespace Anthill

open Radix Bytes

namespace ElfFile

variable (file : ElfFile)

def eType : BitVec 16 := file.read 16 16
def eMachine : BitVec 16 := file.read 16 18
def eEntry : Word := file.read 64 24

end ElfFile

def etExec : BitVec 16 := 2

def elfValidate (file : ElfFile) : KernErr :=
  if file.bytes 0 4 ≠ [0x7f, 0x45, 0x4c, 0x46] then .elfInv
  else if file.eType ≠ etExec then .elfUns
  else if file.eMachine ≠ 0xb7 then .elfMac
  else .ok

-- A byte that the kernel stores through the table of the current process. It is a fault where the table has no page that
-- may be written, and where the address is not one that the table translates.
def storeByte (tranTable : Word) (k : Kernel) (a : Word) (byte : BitVec 8) : Except Halt Kernel :=
  match node nav k.mem tranTable (mmuGetTableIdx a) with
  | none => .error .fault
  | some page =>
    let ap := apBits (userEntry k.mem tranTable a)
    if a.toNat < 2 ^ 48 ∧ (ap = attApNaRw ∨ ap = attApRwRw) then
      .ok (k.writePage page (copyBytes (k.mem page) (a.toNat % 4096) [byte]))
    else .error .fault

def storeBytes (tranTable : Word) : Kernel → Word → List (BitVec 8) → Except Halt Kernel
  | k, _, [] => .ok k
  | k, a, byte :: bytes =>
    match storeByte tranTable k a byte with
    | .error halt => .error halt
    | .ok k => storeBytes tranTable k (a + 1) bytes

-- Stores of some bytes each, in their order.
def storeAll (tranTable : Word) : Kernel → List (Word × List (BitVec 8)) → Except Halt Kernel
  | k, [] => .ok k
  | k, (a, bytes) :: stores =>
    match storeBytes tranTable k a bytes with
    | .error halt => .error halt
    | .ok k => storeAll tranTable k stores

-- The bytes of a string with the one that ends it.
def cString (arg : List CChar) : List (BitVec 8) := arg.map (fun c => c.val) ++ [0]

def argSize (args : List (List CChar)) : Word :=
  let size := args.foldl (fun size arg => size + (BitVec.ofNat 64 arg.length + 1)) 0
  if size % 8 ≠ 0 then size + (8 - size % 8) else size

-- The loop over the arguments, and argv[argc] = NULL.
def argStores : List (List CChar) → Word → Word → List (Word × List (BitVec 8))
  | [], _, argv => [(argv, split (0 : Word) 8)]
  | arg :: args, argPos, argv =>
    (argPos, cString arg) :: (argv, split argPos 8) ::
      argStores args (argPos + (BitVec.ofNat 64 arg.length + 1)) (argv + 8)

def argPos (stackAddr : Word) (args : List (List CChar)) : Word := stackAddr + pageSize - argSize args

def argArray (stackAddr : Word) (args : List (List CChar)) : Word :=
  argPos stackAddr args - 8 * (BitVec.ofNat 64 args.length + 1)

def argStack (stackAddr : Word) (args : List (List CChar)) : Word := argArray stackAddr args - 8

-- What task_exec writes to the stack, with argc first.
def stackStores (stackAddr : Word) (args : List (List CChar)) : List (Word × List (BitVec 8)) :=
  (argStack stackAddr args, split (BitVec.ofNat 64 args.length) 8) ::
    argStores args (argPos stackAddr args) (argArray stackAddr args)

-- The strings are in memory that no call writes, as the file is; `none` stands for args == NULL.
def setupArgs (k : Kernel) (tranTable stackAddr : Word) :
    Option (List (List CChar)) → Except Halt (Word × Kernel)
  | none => .ok (stackAddr + pageSize, k)
  | some args =>
    match storeAll tranTable k (stackStores stackAddr args) with
    | .error halt => .error halt
    | .ok k => .ok (argStack stackAddr args, k)

-- How task_exec ends: it returns an error, or cpu_start_user goes to the program.
inductive ExecEnd where
  | returned (err : KernErr)
  | started (entry sp tranTable : Word)
deriving DecidableEq

def taskExec (fuel : Nat) (file : ElfFile) (args : Option (List (List CChar))) (s : Sys) :
    Option (Except Halt (ExecEnd × Sys)) :=
  let s := s.enter
  if elfValidate file ≠ .ok then some (.ok (.returned (elfValidate file), s))
  else
    let tranTable := s.table s.current
    match orPanic "Failed to teardown table entries" (memTableTeardown s.kernel tranTable) with
    | .error halt => some (.error halt)
    | .ok k =>
      match elfCreateProcImage fuel file k tranTable with
      | none => none
      | some (.error halt) => some (.error halt)
      | some (.ok (stack, k)) =>
        if stack.err ≠ .ok then some (.ok (.returned stack.err, { s with kernel := k }))
        else
          match setupArgs k tranTable stack.addr args with
          | .error halt => some (.error halt)
          | .ok (sp, k) =>
            let s := { s with kernel := k }.leave
            some (.ok (.started file.eEntry sp s.currentTask.tranTable, s))

/-- What a task_exec that returns an error is to leave as it was. -/
structure ExecUndone (s s' : Sys) : Prop where
  translations : ∀ v, node nav s'.kernel.mem (s'.table s.current) (mmuGetTableIdx v) =
    node nav s.kernel.mem (s.table s.current) (mmuGetTableIdx v)
  contents : ∀ a, userByte s'.kernel (s'.table s.current) a = userByte s.kernel (s.table s.current) a
  preempt : (s'.task s.current).preemptCount = (s.task s.current).preemptCount

theorem taskExec_error (fuel : Nat) (file : ElfFile) (args : Option (List (List CChar))) (s s' : Sys) (err : KernErr)
    (failed : taskExec fuel file args s = some (.ok (.returned err, s'))) :
    (elfValidate file = err ∧ err ≠ .ok ∧ s' = s.enter) ∨
      (elfValidate file = .ok ∧ ∃ k addr, memTableTeardown s.kernel (s.table s.current) = .ok (.ok, k) ∧
        elfCreateProcImage fuel file k (s.table s.current) = some (.ok (⟨addr, err⟩, s'.kernel)) ∧ err ≠ .ok ∧
        s' = { s.enter with kernel := s'.kernel }) := by
  have table : s.enter.table s.enter.current = s.table s.current := by
    have task : s.enter.task s.enter.current = _ := s.enter_current
    rw [Sys.table, Sys.table, task]
    rfl
  have kernel : s.enter.kernel = s.kernel := rfl
  unfold taskExec at failed
  simp only [table, kernel] at failed
  by_cases valid : elfValidate file = .ok
  · rw [if_neg (not_not.mpr valid)] at failed
    refine .inr ⟨valid, ?_⟩
    rcases torn : memTableTeardown s.kernel (s.table s.current) with halt | ⟨err', k⟩
    · rw [torn] at failed
      cases failed
    · rw [torn] at failed
      cases err'
      case ok =>
        simp only [orPanic] at failed
        rcases made : elfCreateProcImage fuel file k (s.table s.current) with _ | halt | ⟨⟨addr, err'⟩, k'⟩
        · rw [made] at failed
          cases failed
        · rw [made] at failed
          cases failed
        · rw [made] at failed
          simp only at failed
          split_ifs at failed with refused
          · cases failed
            exact ⟨k, addr, rfl, made, refused, rfl⟩
          · split at failed <;> cases failed
      all_goals cases failed
  · rw [if_pos valid] at failed
    cases failed
    exact .inl ⟨rfl, valid, rfl⟩

/-- No return with an error takes back the first line of task_exec. Those that validation makes leave all the rest as it
was; the others come after the old image is gone. -/
theorem taskExec_failed (fuel : Nat) (file : ElfFile) (args : Option (List (List CChar))) (s s' : Sys) (err : KernErr)
    (failed : taskExec fuel file args s = some (.ok (.returned err, s'))) :
    ¬ ExecUndone s s' ∧ (s'.task s.current).preemptCount = (s.task s.current).preemptCount + 1 ∧
      (elfValidate file ≠ .ok → s'.kernel = s.kernel) ∧
      (elfValidate file = .ok → ∃ k addr, memTableTeardown s.kernel (s.table s.current) = .ok (.ok, k) ∧
        elfCreateProcImage fuel file k (s.table s.current) = some (.ok (⟨addr, err⟩, s'.kernel))) := by
  have ended := taskExec_error fuel file args s s' err failed
  have counted : (s'.task s.current).preemptCount = (s.task s.current).preemptCount + 1 := by
    have entered : (s.enter.task s.current).preemptCount = (s.task s.current).preemptCount + 1 := by
      rw [s.enter_current]
      rfl
    rcases ended with ⟨_, _, rfl⟩ | ⟨_, _, _, _, _, _, same⟩
    · exact entered
    · rw [same]
      exact entered
  refine ⟨fun undone => ?_, counted, fun refused => ?_, fun valid => ?_⟩
  · have same := undone.preempt
    omega
  · rcases ended with ⟨_, _, rfl⟩ | ⟨valid, _⟩
    · rfl
    · exact absurd valid refused
  · rcases ended with ⟨refused, other, _⟩ | ⟨_, k, addr, torn, made, _⟩
    · exact absurd (refused.symm.trans valid) other
    · exact ⟨k, addr, torn, made⟩

-- Four bytes that are not those of a header.
theorem noElf_refused : taskExec 0 (fun _ => 0) none (oneTask [] []) =
    some (.ok (.returned .elfInv, (oneTask [] []).enter)) := by
  rfl

theorem taskExec_failed_noElf : ¬ ExecUndone (oneTask [] []) (oneTask [] []).enter :=
  (taskExec_failed 0 (fun _ => 0) none _ _ .elfInv noElf_refused).1

theorem failed_exec_counts : ¬ ∀ (fuel : Nat) (file : ElfFile) (args : Option (List (List CChar))) (s s' : Sys)
    (err : KernErr), taskExec fuel file args s = some (.ok (.returned err, s')) → ExecUndone s s' := by
  intro claim
  have same := (claim 0 (fun _ => 0) none _ _ .elfInv noElf_refused).preempt
  have entered := congrArg Task.preemptCount (oneTask [] []).enter_current
  rw [same] at entered
  have raised : (oneTask [] []).currentTask.preemptCount + 1 ≠ (oneTask [] []).currentTask.preemptCount := by omega
  exact raised entered.symm

end Anthill
