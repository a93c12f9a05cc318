import Anthill.MapPage
import Anthill.Run

set_option autoImplicit false

namespace Anthill

open Radix

def einval : Word := 5
def enomem : Word := 10
def enotsup : Word := 16

def protPerm (prot : Int) : Option MemPerm :=
  if prot = 1 then some .ro
  else if prot = 3 then some .rw
  else if prot = 5 then some .ex
  else none

-- One round of the loop of _map_anonymous; `.error` is an early return.
def anonymousStep (k : Kernel) (tranTable vaddr : Word) (perm : MemPerm) :
    Except (Except Halt (Word × Kernel)) Kernel :=
  match memKernelAllocPage k .rw with
  | (⟨page, .ok⟩, k) =>
    match memUserMapPage k tranTable vaddr (virtToPhys page) perm .norm with
    | .error halt => .error (.error halt)
    | .ok (.ok, k) => .ok k
    | .ok (_, k) => .error (.ok (enomem, k))
  | (⟨_, .memOom⟩, k) => .error (.ok (enomem, k))
  | _ => .error (.error (.panic "Unhandled error code"))

-- Rounds `i`, `i + 1`, and so on of the loop, `count` of them.
def anonymousLoop (tranTable vaddr : Word) (perm : MemPerm) :
    Kernel → Nat → Nat → Except Halt (Word × Kernel)
  | k, _, 0 => .ok (vaddr, k)
  | k, i, count + 1 =>
    match anonymousStep k tranTable (pageAt vaddr i) perm with
    | .error early => early
    | .ok k => anonymousLoop tranTable vaddr perm k (i + 1) count

def alignUp (addr : Word) : Word := (addr + pageSize - 1) &&& ~~~(pageSize - 1)

def alignDown (addr : Word) : Word := addr &&& ~~~(pageSize - 1)

-- Where _map_anonymous starts to look.
def anonymousHint (addr : Word) : Word := if addr ≠ 0 then alignUp addr else 0x200000

-- `none` says that the search for a free range needs more than `fuel` rounds.
def mapAnonymous (fuel : Nat) (k : Kernel) (tranTable addr len : Word) (perm : MemPerm) :
    Option (Except Halt (Word × Kernel)) :=
  let pageCnt := (memSizeToPages len).toNat
  match memUserFindEmpty k.mem tranTable pageCnt fuel (anonymousHint addr) with
  | none => none
  | some vaddr =>
    if vaddr = 0 then some (.ok (enomem, k))
    else some (anonymousLoop tranTable vaddr perm k 0 pageCnt)

def deviceStep (k : Kernel) (tranTable vaddr : Word) (perm : MemPerm) :
    Except (Except Halt (Word × Kernel)) Kernel :=
  match memUserMapPage k tranTable vaddr vaddr perm .devc with
  | .error halt => .error (.error halt)
  | .ok (.ok, k) => .ok k
  | .ok (_, k) => .error (.ok (enomem, k))

def deviceLoop (tranTable vaddr : Word) (perm : MemPerm) :
    Kernel → Nat → Nat → Except Halt (Word × Kernel)
  | k, _, 0 => .ok (vaddr, k)
  | k, i, count + 1 =>
    match deviceStep k tranTable (pageAt vaddr i) perm with
    | .error early => early
    | .ok k => deviceLoop tranTable vaddr perm k (i + 1) count

def mapDevice (fuel : Nat) (k : Kernel) (tranTable addr len : Word) (perm : MemPerm) :
    Option (Except Halt (Word × Kernel)) :=
  let pageCnt := (memSizeToPages len).toNat
  match memUserFindEmpty k.mem tranTable pageCnt fuel addr with
  | none => none
  | some vaddr =>
    if vaddr ≠ addr then some (.ok (enomem, k))
    else some (deviceLoop tranTable vaddr perm k 0 pageCnt)

def mapAnonymousFlag : Int := 1
def mapDeviceFlag : Int := 2

def sysMmap (fuel : Nat) (k : Kernel) (tranTable addr len : Word) (prot flags : Int) :
    Option (Except Halt (Word × Kernel)) :=
  if len = 0 then some (.ok (einval, k))
  else
    match protPerm prot with
    | none => some (.ok (enotsup, k))
    | some perm =>
      if flags = mapAnonymousFlag then mapAnonymous fuel k tranTable addr len perm
      else if flags = mapDeviceFlag then mapDevice fuel k tranTable addr len perm
      else some (.ok (enotsup, k))

-- One round of the loop of sys_munmap.
def munmapStep (k : Kernel) (tranTable p : Word) : Except Halt Kernel :=
  match memUserUnmapPage k tranTable p with
  | (⟨addr, .ok⟩, k) =>
    if addr = 0 then .ok k
    else
      match memKernelFreePage k addr with
      | .error halt => .error halt
      | .ok (.ok, k) => .ok k
      | .ok (_, _) => .error (.panic "Tried to free a non allocated kernel page")
  | (⟨_, .memUnm⟩, k) => .ok k
  | _ => .error (.panic "Unhandled error code")

def munmapLoop (tranTable start : Word) : Kernel → Nat → Nat → Except Halt Kernel
  | k, _, 0 => .ok k
  | k, i, count + 1 =>
    match munmapStep k tranTable (pageAt start i) with
    | .error halt => .error halt
    | .ok k => munmapLoop tranTable start k (i + 1) count

-- How often the loop of sys_munmap runs: both ends are page-aligned, and the test is `p < page_end`.
def munmapCount (addr len : Word) : Nat :=
  if alignDown addr < alignDown (addr + len) then
    ((alignDown (addr + len) - alignDown addr) / pageSize).toNat
  else 0

def sysMunmap (k : Kernel) (tranTable addr len : Word) : Except Halt (Word × Kernel) :=
  if len = 0 then .ok (-einval, k)
  else (munmapLoop tranTable (alignDown addr) k 0 (munmapCount addr len)).map fun k => (0, k)

end Anthill
