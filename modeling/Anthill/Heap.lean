import Anthill.Buddy
import Anthill.Bytes
import Mathlib.Data.Nat.Size

set_option autoImplicit false

namespace Anthill

open Bytes (Store)

def mallocMaxOrder : Nat := 12

def mallocBlockSize : Nat := 2 ^ mallocMaxOrder

-- sizeof(struct block)
def blockSize : Nat := 24

/-- The fields of a struct block. -/
structure Header where
  available : BitVec 8
  k : BitVec 8
  prev : BitVec 64
  next : BitVec 64

/-- The memory of a process and its heap: `chunks` are the chunks from mmap that are mapped, and `strays` the
headers outside of them that have been used. -/
structure Arena where
  mem : Store
  firstBlock : Nat
  chunks : List Nat
  strays : List Nat

/-- What a function comes to: it returns, it uses a header that is not mapped, it copies from memory that is not
mapped, or it has not returned. -/
inductive HeapResult (α : Type) where
  | ok (value : α) (h : Arena)
  | fault
  | overread (h : Arena)
  | unfinished (h : Arena)

def HeapResult.bind {α β : Type} : HeapResult α → (α → Arena → HeapResult β) → HeapResult β
  | .ok value h, f => f value h
  | .fault, _ => .fault
  | .overread h, _ => .overread h
  | .unfinished h, _ => .unfinished h

/-- What holds of a result: `Q` where the function returns, `safe` where it has not, and `faults` where a header is
not mapped. -/
def HeapResult.Ensures {α : Type} (faults : Prop) (safe : Arena → Prop) (Q : α → Arena → Prop) : HeapResult α → Prop
  | .ok value h => Q value h
  | .fault => faults
  | .overread h | .unfinished h => safe h

theorem HeapResult.Ensures.bind {α β : Type} {faults : Prop} {safe : Arena → Prop} {P : α → Arena → Prop}
    {Q : β → Arena → Prop} {result : HeapResult α} {f : α → Arena → HeapResult β} (first : result.Ensures faults safe P)
    (second : ∀ value h, P value h → (f value h).Ensures faults safe Q) : (result.bind f).Ensures faults safe Q := by
  cases result with
  | ok value h => exact second value h first
  | fault => exact first
  | overread h => exact first
  | unfinished h => exact first

theorem HeapResult.Ensures.weaken {α : Type} {faults : Prop} {safe safe' : Arena → Prop} {P Q : α → Arena → Prop}
    {result : HeapResult α} (holds : result.Ensures faults safe P) (weakerSafe : ∀ h, safe h → safe' h)
    (weaker : ∀ value h, P value h → Q value h) : result.Ensures faults safe' Q := by
  cases result with
  | ok value h => exact weaker value h holds
  | fault => exact holds
  | overread h => exact weakerSafe h holds
  | unfinished h => exact weakerSafe h holds

theorem HeapResult.Ensures.imp {α : Type} {faults : Prop} {safe : Arena → Prop} {P Q : α → Arena → Prop}
    {result : HeapResult α} (holds : result.Ensures faults safe P) (weaker : ∀ value h, P value h → Q value h) :
    result.Ensures faults safe Q := holds.weaken (fun _ is => is) weaker

namespace Arena

def header (h : Arena) (b : Nat) : Header :=
  ⟨h.mem b, h.mem (b + 1), Bytes.combine 64 (h.mem.bytes (b + 8) 8), Bytes.combine 64 (h.mem.bytes (b + 16) 8)⟩

def put (h : Arena) (b : Nat) (x : Header) : Arena :=
  let mem := (h.mem.set b x.available).set (b + 1) x.k
  { h with mem := (mem.write (b + 8) (Bytes.split x.prev 8)).write (b + 16) (Bytes.split x.next 8) }

def available (h : Arena) (b : Nat) : Bool := (h.header b).available != 0

def order (h : Arena) (b : Nat) : Nat := (h.header b).k.toNat

def prev (h : Arena) (b : Nat) : Nat := (h.header b).prev.toNat

def next (h : Arena) (b : Nat) : Nat := (h.header b).next.toNat

-- The pages of the process besides its chunks are those of `other`.
variable (other : Nat → Bool)

def page (a : Nat) : Nat := Buddy.floor mallocMaxOrder a

def mapped (h : Arena) (a : Nat) : Bool := page a ∈ h.chunks || other (page a)

-- An access to a header.
def use (h : Arena) (b : Nat) : HeapResult Unit :=
  if page b ∈ h.chunks ∧ page (b + blockSize - 1) = page b then .ok () h
  else if h.mapped other b && h.mapped other (b + blockSize - 1) then .ok () { h with strays := b :: h.strays }
  else .fault

-- The call of mmap in _expand. A chunk is the answer, or that it fails with MAP_FAILED.
def mmap (h : Arena) : Option Nat → Nat × Arena
  | some chunk => (chunk, { h with chunks := chunk :: h.chunks })
  | none => (2 ^ 64 - 1, h)

def munmap (h : Arena) (chunk : Nat) : Arena := { h with chunks := h.chunks.filter fun c => c ≠ chunk }

def expand (h : Arena) (block : Nat) (reply : Option Nat) : HeapResult Nat :=
  let (newBlock, h) := h.mmap reply
  if newBlock = 0 then .ok 1 h
  else
    (h.use other newBlock).bind fun _ h =>
      let h := h.put newBlock { h.header newBlock with available := 1, k := BitVec.ofNat 8 mallocMaxOrder, next := 0 }
      let h := h.put newBlock { h.header newBlock with prev := BitVec.ofNat 64 block }
      if block ≠ 0 then
        (h.use other block).bind fun _ h =>
          .ok 0 (h.put block { h.header block with next := BitVec.ofNat 64 newBlock })
      else .ok 0 { h with firstBlock := newBlock }

def shrink (h : Arena) (block : Nat) : HeapResult Unit :=
  let prev := h.prev block
  if prev ≠ 0 then
    (h.use other prev).bind fun _ h =>
      .ok () ((h.put prev { h.header prev with next := (h.header block).next }).munmap block)
  else .ok () (h.munmap block)

def split (h : Arena) (block : Nat) : HeapResult Unit :=
  let h := h.put block { h.header block with k := (h.header block).k - 1 }
  let newBlock := block + 2 ^ h.order block
  (h.use other newBlock).bind fun _ h =>
    let h := h.put newBlock ⟨1, (h.header block).k, BitVec.ofNat 64 block, (h.header block).next⟩
    .ok () (h.put block { h.header block with next := BitVec.ofNat 64 newBlock })

-- The body of the loop of block_coalesce.
def join (h : Arena) (block buddy : Nat) : Arena :=
  let h := h.put block { h.header block with k := (h.header block).k + 1 }
  h.put block { h.header block with next := (h.header buddy).next }

-- The loop of block_coalesce. It leaves with the block that it has come to.
def merge : Nat → Nat → Arena → HeapResult Nat
  | 0, _, h => .unfinished h
  | fuel + 1, block, h =>
    let buddy := block ^^^ 2 ^ h.order block
    if buddy = 0 then .ok block h
    else
      (h.use other buddy).bind fun _ h =>
        if h.available buddy ∧ h.order block < mallocMaxOrder then
          let (block, buddy) := if buddy < block then (buddy, block) else (block, buddy)
          merge fuel block (h.join block buddy)
        else .ok block h

def blockCoalesce (fuel block : Nat) (h : Arena) : HeapResult Unit :=
  (merge other fuel block h).bind fun block h =>
    if h.order block = mallocMaxOrder ∧ block ≠ h.firstBlock then h.shrink other block else .ok () h

-- The loop of block_find with its tail call. mmap gives the replies in their order.
def blockFind (order : Nat) : Nat → List (Option Nat) → Nat → Nat → Arena → HeapResult Nat
  | 0, _, _, _, h => .unfinished h
  | fuel + 1, replies, currentBlock, lastBlock, h =>
    if currentBlock ≠ 0 then
      (h.use other currentBlock).bind fun _ h =>
        if !h.available currentBlock ∨ h.order currentBlock < order then
          blockFind order fuel replies (h.next currentBlock) currentBlock h
        else if order < h.order currentBlock then
          (h.split other currentBlock).bind fun _ h => blockFind order fuel replies currentBlock lastBlock h
        else .ok currentBlock (h.put currentBlock { h.header currentBlock with available := 0 })
    else
      match replies with
      | [] => .unfinished h
      | reply :: replies =>
        (h.expand other lastBlock reply).bind fun failed h =>
          if failed = 0 then blockFind order fuel replies h.firstBlock 0 h else .ok 0 h

def malloc (fuel : Nat) (replies : List (Option Nat)) (size : BitVec 64) (h : Arena) : HeapResult Nat :=
  if size = 0 then .ok 0 h
  else
    let actualSize := size + BitVec.ofNat 64 blockSize
    if mallocBlockSize < actualSize.toNat then .ok 0 h
    else
      -- The shifts that bring the size to 0 are its binary digits.
      let j := actualSize.toNat.size
      (blockFind other j fuel replies h.firstBlock 0 h).bind fun availableBlock h =>
        if availableBlock = 0 then .ok 0 h else .ok (availableBlock + blockSize) h

def free (fuel ptr : Nat) (h : Arena) : HeapResult Unit :=
  if ptr = 0 then .ok () h
  else
    let block := ptr - blockSize
    (h.use other block).bind fun _ h =>
      blockCoalesce other fuel block (h.put block { h.header block with available := 1 })

def seekBlock (block : Nat) : Nat → Nat → Arena → HeapResult Nat
  | 0, _, h => .unfinished h
  | fuel + 1, currentBlock, h =>
    if currentBlock = 0 ∨ currentBlock = block then .ok currentBlock h
    else (h.use other currentBlock).bind fun _ h => seekBlock block fuel (h.next currentBlock) h

def blockGetSize (fuel ptr : Nat) (h : Arena) : HeapResult Nat :=
  (seekBlock other (ptr - blockSize) fuel h.firstBlock h).bind fun currentBlock h =>
    if currentBlock = 0 then .ok 0 h
    else (h.use other currentBlock).bind fun _ h => .ok (2 ^ h.order currentBlock) h

def memcpy (dst src n : Nat) (h : Arena) : HeapResult Unit :=
  if ∀ i, i < n → h.mapped other (src + i) then .ok () { h with mem := h.mem.write dst (h.mem.bytes src n) }
  else .overread h

-- realloc as far as its call of free.
def reallocCopy (fuel : Nat) (replies : List (Option Nat)) (ptr : Nat) (size : BitVec 64) (h : Arena) : HeapResult Nat :=
  if size = 0 then .ok 0 h
  else
    (if ptr = 0 then .ok 0 h else blockGetSize other fuel ptr h).bind fun n h =>
      if ptr ≠ 0 ∧ n = 0 then .ok 0 h
      else
        (malloc other fuel replies size h).bind fun result h =>
          if result = 0 then .ok 0 h
          else (memcpy other result ptr (min n size.toNat) h).bind fun _ h => .ok result h

def realloc (fuel : Nat) (replies : List (Option Nat)) (ptr : Nat) (size : BitVec 64) (h : Arena) : HeapResult Nat :=
  (reallocCopy other fuel replies ptr size h).bind fun result h =>
    if result = 0 then .ok 0 h else (free other fuel ptr h).bind fun _ h => .ok result h

section Header

variable (h : Arena)

@[simp] theorem put_firstBlock (b : Nat) (x : Header) : (h.put b x).firstBlock = h.firstBlock := rfl
@[simp] theorem put_chunks (b : Nat) (x : Header) : (h.put b x).chunks = h.chunks := rfl
@[simp] theorem put_strays (b : Nat) (x : Header) : (h.put b x).strays = h.strays := rfl

theorem combine_bytes_write (m : Store) (a : Nat) (v : BitVec 64) :
    Bytes.combine 64 ((m.write a (Bytes.split v 8)).bytes a 8) = v := by
  have bytes := m.bytes_write a (Bytes.split v 8)
  rw [Bytes.length_split] at bytes
  rw [bytes, Bytes.combine_split v 8 v.isLt]

/-- A header depends on its 24 bytes. -/
theorem header_congr {h' : Arena} {b : Nat} (same : ∀ a, b ≤ a → a < b + blockSize → h'.mem a = h.mem a) :
    h'.header b = h.header b := by
  rw [blockSize] at same
  rw [header, header, same b (by omega) (by omega), same (b + 1) (by omega) (by omega),
    Store.bytes_congr fun a low high => same a (by omega) (by omega),
    Store.bytes_congr fun a low high => same a (by omega) (by omega)]

theorem put_outside (b : Nat) (x : Header) (a : Nat) (outside : a < b ∨ b + blockSize ≤ a) : (h.put b x).mem a = h.mem a := by
  rw [blockSize] at outside
  simp only [put]
  rw [Store.write_outside _ _ _ _ (by rw [Bytes.length_split]; omega),
    Store.write_outside _ _ _ _ (by rw [Bytes.length_split]; omega), Store.set, if_neg (by omega), Store.set,
    if_neg (by omega)]

theorem header_put (b : Nat) (x : Header) : (h.put b x).header b = x := by
  have available : (h.put b x).mem b = x.available := by
    simp only [put]
    rw [Store.write_outside _ _ _ _ (.inl (by omega)), Store.write_outside _ _ _ _ (.inl (by omega)), Store.set,
      if_neg (by omega), Store.set, if_pos rfl]
  have k : (h.put b x).mem (b + 1) = x.k := by
    simp only [put]
    rw [Store.write_outside _ _ _ _ (.inl (by omega)), Store.write_outside _ _ _ _ (.inl (by omega)), Store.set,
      if_pos rfl]
  have prev : Bytes.combine 64 ((h.put b x).mem.bytes (b + 8) 8) = x.prev := by
    simp only [put]
    rw [Store.bytes_congr fun a low high => Store.write_outside _ _ _ _ (.inl (by omega)), combine_bytes_write]
  have next : Bytes.combine 64 ((h.put b x).mem.bytes (b + 16) 8) = x.next := combine_bytes_write ..
  rw [header, available, k, prev, next]

-- Headers at multiples of 32 do not overlap.
theorem header_put_of_ne {a b : Nat} (x : Header) (ha : 32 ∣ a) (hb : 32 ∣ b) (ne : a ≠ b) :
    (h.put b x).header a = h.header a :=
  h.header_congr fun c low high => h.put_outside b x c (by rw [blockSize] at *; omega)

theorem header_join {block buddy : Nat} (ha : 32 ∣ block) (hb : 32 ∣ buddy) (ne : buddy ≠ block) :
    (h.join block buddy).header block =
      { h.header block with k := (h.header block).k + 1, next := (h.header buddy).next } := by
  rw [join, header_put, header_put, header_put_of_ne _ _ hb ha ne]

theorem header_join_of_ne {block buddy a : Nat} (ha : 32 ∣ a) (hb : 32 ∣ block) (ne : a ≠ block) :
    (h.join block buddy).header a = h.header a := by
  rw [join, header_put_of_ne _ _ ha hb ne, header_put_of_ne _ _ ha hb ne]

-- A field that a store of the header leaves.
theorem field_put {β : Type} (f : Header → β) {a b : Nat} (x : Header) (ha : 32 ∣ a) (hb : 32 ∣ b)
    (same : f x = f (h.header b)) : f ((h.put b x).header a) = f (h.header a) := by
  by_cases here : a = b
  · subst here
    rw [header_put, same]
  · rw [h.header_put_of_ne x ha hb here]

end Header

end Arena

/-- The calls of a process, and its own stores. -/
inductive HeapCall where
  | malloc (size : BitVec 64)
  | free (ptr : Nat)
  | realloc (ptr : Nat) (size : BitVec 64)
  | store (a : Nat) (byte : BitVec 8)

def HeapCall.run (other : Nat → Bool) (fuel : Nat) (replies : List (Option Nat)) : HeapCall → Arena → HeapResult Nat
  | .malloc size, h => h.malloc other fuel replies size
  | .free ptr, h => (h.free other fuel ptr).bind fun _ h => .ok 0 h
  | .realloc ptr size, h => h.realloc other fuel replies ptr size
  | .store a byte, h => .ok 0 { h with mem := h.mem.set a byte }

end Anthill
