import Anthill.CString
import Anthill.FcallWire

set_option autoImplicit false

namespace Anthill

open Bytes (Store)

-- A pointer to compare is what is in memory from it on.

/-- memcmp of the C library. Behind n equal bytes it looks at the next ones, and answers 0 whatever they are. -/
def memcmp (l r : Nat → Byte) : Nat → Int
  | 0 => 0
  | n + 1 => if l 0 = r 0 then memcmp (fun i => l (i + 1)) (fun i => r (i + 1)) n else (l 0).toNat - (r 0).toNat

theorem memcmp_eq_zero (l r : Nat → Byte) (n : Nat) : memcmp l r n = 0 ↔ ∀ i, i < n → l i = r i := by
  induction n generalizing l r with
  | zero => exact ⟨fun _ i lt => absurd lt (Nat.not_lt_zero i), fun _ => rfl⟩
  | succ n ih =>
    rw [memcmp]
    split_ifs with same
    · rw [ih]
      constructor
      · intro rest i lt
        cases i with
        | zero => exact same
        | succ i => exact rest i (Nat.lt_of_succ_lt_succ lt)
      · exact fun all i lt => all (i + 1) (Nat.succ_lt_succ lt)
    · constructor
      · intro zero
        exact absurd (BitVec.eq_of_toNat_eq (by omega)) same
      · exact fun all => absurd (all 0 (Nat.succ_pos n)) same

theorem memcmp_bytes (m : Store) (a b n : Nat) :
    memcmp (fun i => m (a + i)) (fun i => m (b + i)) n = 0 ↔ m.bytes a n = m.bytes b n := by
  rw [memcmp_eq_zero]
  constructor
  · intro all
    refine List.ext_getElem? fun i => ?_
    by_cases inside : i < n
    · rw [m.bytes_get a n i inside, m.bytes_get b n i inside, all i inside]
    · rw [List.getElem?_eq_none (by simpa using inside), List.getElem?_eq_none (by simpa using inside)]
  · intro same i lt
    have read := congrArg (fun l => l[i]?) same
    rwa [m.bytes_get a n i lt, m.bytes_get b n i lt, Option.some.injEq] at read

-- Where the archive is, and the fields of a header.

def ramdisk : Nat := 0x3e000000

def sizeofHeader : Nat := 512

def headerNameSize : Nat := 100

def headerSizeSize : Nat := 12

def headerSizeOff : Nat := 124

def headerTypeOff : Nat := 156

def headerMagicOff : Nat := 257

-- "ustar" with its NUL.
def ustar : List Byte := [0x75, 0x73, 0x74, 0x61, 0x72, 0]

def isHeader (m : Store) (header : Nat) : Bool :=
  memcmp (fun i => m (header + headerMagicOff + i)) (fun i => ustar.getD i 0) 6 = 0

-- The loop over the digits, from the pointer c on.
def sizeLoop (m : Store) : Nat → Nat → Int → Int
  | 0, _, size => size
  | total + 1, c, size => if m c = 0 then size else sizeLoop m total (c + 1) (size * 8 + ((m c).toNat - 48))

def rdGetSize (m : Store) (header : Nat) : BitVec 64 :=
  if isHeader m header then BitVec.ofInt 64 (sizeLoop m headerSizeSize (header + headerSizeOff) 0) else 0

def getBlocks (size : BitVec 64) : Nat := ((size + 511) / 512 + 1).toNat

/-- The number that octal digits stand for behind those of `v`. -/
def octalFrom (v : Nat) (digits : List Byte) : Nat := digits.foldl (fun v c => v * 8 + (c.toNat - 48)) v

/-- What a header says: the name, the digits of the size and the type. -/
structure Entry where
  name : CStr
  digits : List Byte
  type : Byte
  dot : name.1.head? = some 0x2e
  short : name.1.length < headerNameSize
  octal : ∀ d, d ∈ digits → 48 ≤ d.toNat ∧ d.toNat < 56
  fits : digits.length ≤ headerSizeSize

def Entry.size (e : Entry) : Nat := octalFrom 0 e.digits

-- The first header behind the file of an entry with its header at `h`.
def Entry.next (e : Entry) (h : Nat) : Nat := h + sizeofHeader * ((e.size + 511) / 512 + 1)

/-- The header at `h` is that of an entry. -/
structure Entry.At (m : Store) (h : Nat) (e : Entry) : Prop where
  magic : isHeader m h = true
  name : m.bytes h (e.name.1.length + 1) = e.name.1 ++ [0]
  size : m.bytes (h + headerSizeOff) e.digits.length = e.digits
  ends : e.digits.length < headerSizeSize → m (h + headerSizeOff + e.digits.length) = 0
  type : m (h + headerTypeOff) = e.type

/-- An archive from `h` on: entries one behind the other, and a block that is no header. -/
def Archive (m : Store) : Nat → List Entry → Prop
  | h, [] => isHeader m h = false
  | h, e :: es => e.At m h ∧ Archive m (e.next h) es

/-- The entries with the places of their headers. -/
def headers : Nat → List Entry → List (Nat × Entry)
  | _, [] => []
  | h, e :: es => (h, e) :: headers (e.next h) es

-- The place behind the last entry.
def archiveEnd : Nat → List Entry → Nat
  | h, [] => h
  | h, e :: es => archiveEnd (e.next h) es

theorem octalFrom_lt (digits : List Byte) (octal : ∀ d, d ∈ digits → 48 ≤ d.toNat ∧ d.toNat < 56) (v k : Nat)
    (small : v < 8 ^ k) : octalFrom v digits < 8 ^ (k + digits.length) := by
  induction digits generalizing v k with
  | nil => exact small
  | cons d ds ih =>
    have digit := octal d (List.mem_cons_self ..)
    have next : v * 8 + (d.toNat - 48) < 8 ^ (k + 1) := by
      rw [Nat.pow_succ]
      omega
    have rest := ih (fun d hd => octal d (List.mem_cons_of_mem _ hd)) _ (k + 1) next
    rwa [Nat.add_right_comm, Nat.add_assoc] at rest

theorem Entry.size_lt (e : Entry) : e.size < 2 ^ 36 := by
  have bound := octalFrom_lt e.digits e.octal 0 0 (by decide)
  rw [Nat.zero_add] at bound
  exact Nat.lt_of_lt_of_le bound (Nat.pow_le_pow_right (by decide) e.fits)

theorem sizeLoop_digits (m : Store) (digits : List Byte) (octal : ∀ d, d ∈ digits → 48 ≤ d.toNat ∧ d.toNat < 56)
    (total c v : Nat) (fits : digits.length ≤ total) (is : m.bytes c digits.length = digits)
    (ends : digits.length < total → m (c + digits.length) = 0) :
    sizeLoop m total c v = octalFrom v digits := by
  induction digits generalizing total c v with
  | nil =>
    cases total with
    | zero => rfl
    | succ total =>
      have stop : m c = 0 := ends (Nat.succ_pos total)
      rw [sizeLoop, if_pos stop]
      rfl
  | cons d ds ih =>
    rw [List.length_cons] at fits is ends
    obtain ⟨total, rfl⟩ := Nat.exists_eq_add_of_le' fits
    rw [Store.bytes] at is
    obtain ⟨first, rest⟩ := List.cons.inj is
    have digit := octal d (List.mem_cons_self ..)
    have nonzero : m c ≠ 0 := by
      rw [first]
      rintro rfl
      exact absurd digit.1 (by decide)
    have value : (v : Int) * 8 + ((m c).toNat - 48) = ((v * 8 + (d.toNat - 48) : Nat) : Int) := by
      rw [first]
      omega
    rw [← Nat.add_assoc, sizeLoop, if_neg nonzero, value, ih (fun d hd => octal d (List.mem_cons_of_mem _ hd)) _ _ _
      (Nat.le_add_left ..) rest (fun lt => by rw [Nat.add_assoc, Nat.add_comm 1]; exact ends (by omega))]
    rfl

section At

variable {m : Store} {h : Nat} {e : Entry} (at' : e.At m h)

include at'

theorem Entry.At.rdGetSize : rdGetSize m h = BitVec.ofNat 64 e.size := by
  have read := sizeLoop_digits m e.digits e.octal headerSizeSize (h + headerSizeOff) 0 e.fits at'.size at'.ends
  rw [Anthill.rdGetSize, if_pos at'.magic]
  rw [Nat.cast_zero] at read
  rw [read]
  rfl

theorem Entry.At.rdGetSize_toNat : (Anthill.rdGetSize m h).toNat = e.size := by
  have small := e.size_lt
  rw [at'.rdGetSize, BitVec.toNat_ofNat, Nat.mod_eq_of_lt (by omega)]

theorem Entry.At.next : h + sizeofHeader * getBlocks (Anthill.rdGetSize m h) = e.next h := by
  have small := e.size_lt
  have blocks : getBlocks (Anthill.rdGetSize m h) = (e.size + 511) / 512 + 1 := by
    have up : (511 : BitVec 64).toNat = 511 ∧ (512 : BitVec 64).toNat = 512 ∧ (1 : BitVec 64).toNat = 1 := by decide
    rw [getBlocks, at'.rdGetSize, BitVec.toNat_add, BitVec.toNat_udiv, BitVec.toNat_add, BitVec.toNat_ofNat, up.1, up.2.1,
      up.2.2]
    omega
  rw [blocks, Entry.next]

-- The header from the name on.
theorem Entry.At.whole : ∃ rest, m.bytes h sizeofHeader = e.name.1 ++ 0 :: rest := by
  have short := e.short
  rw [headerNameSize] at short
  obtain ⟨k, is⟩ : ∃ k, sizeofHeader = e.name.1.length + 1 + k := Nat.exists_eq_add_of_le (by rw [sizeofHeader]; omega)
  refine ⟨m.bytes (h + (e.name.1.length + 1)) k, ?_⟩
  rw [is, Store.bytes_add, at'.name, List.append_assoc]
  rfl

/-- What is behind the first byte of the name, as far as its NUL. -/
theorem Entry.At.tail : m.bytes (h + 1) e.name.1.length = e.name.1.tail ++ [0] := by
  have name := at'.name
  obtain ⟨rest, is⟩ := List.head?_eq_some_iff.mp e.dot
  rw [is] at name ⊢
  exact (List.cons.inj name).2

end At

/-- What is in memory from a string on begins with another string exactly if the string does. -/
theorem bytes_prefix_iff {m : Store} {a : Nat} {s t : List Byte} (is : m.bytes a (s.length + 1) = s ++ [0])
    (nonzero : 0 ∉ t) : m.bytes a t.length = t ↔ t <+: s := by
  by_cases long : s.length < t.length
  · constructor
    · intro same
      obtain ⟨more, total⟩ := Nat.exists_eq_add_of_le long
      rw [total, Store.bytes_add, is] at same
      exact absurd (same ▸ by simp : (0 : Byte) ∈ t) nonzero
    · intro begins
      have short := begins.length_le
      omega
  · have read := m.take_bytes a (s.length + 1) t.length
    rw [Nat.min_eq_left (by omega), is, List.take_append_of_le_length (by omega)] at read
    rw [← read, List.prefix_iff_eq_take]
    exact eq_comm

theorem Entry.le_next (e : Entry) (h : Nat) : h + sizeofHeader ≤ e.next h :=
  Nat.add_le_add_left (Nat.le_mul_of_pos_right _ (Nat.succ_pos _)) h

theorem headers_le {h : Nat} {es : List Entry} : ∀ x, x ∈ headers h es → h ≤ x.1 := by
  induction es generalizing h with
  | nil => exact fun x member => absurd member List.not_mem_nil
  | cons e es ih =>
    intro x member
    rcases List.mem_cons.mp member with rfl | member
    · exact Nat.le_refl _
    · exact Nat.le_trans (Nat.le_of_add_right_le (e.le_next h)) (ih x member)

/-- No two headers are at one place. -/
theorem headers_inj {h : Nat} {es : List Entry} (x y : Nat × Entry) (hx : x ∈ headers h es) (hy : y ∈ headers h es)
    (same : x.1 = y.1) : x = y := by
  induction es generalizing h with
  | nil => cases hx
  | cons e es ih =>
    have after (z : Nat × Entry) (hz : z ∈ headers (e.next h) es) : h < z.1 := by
      have next := Nat.le_trans (e.le_next h) (headers_le z hz)
      rw [sizeofHeader] at next
      omega
    rcases List.mem_cons.mp hx with rfl | hx <;> rcases List.mem_cons.mp hy with rfl | hy
    · rfl
    · exact absurd same (after y hy).ne
    · exact absurd same (after x hx).ne'
    · exact ih hx hy

theorem le_archiveEnd (h : Nat) (es : List Entry) : h + sizeofHeader * es.length ≤ archiveEnd h es := by
  induction es generalizing h with
  | nil => exact Nat.le_refl _
  | cons e es ih =>
    have next := e.le_next h
    have rest := ih (e.next h)
    rw [archiveEnd, List.length_cons, Nat.mul_succ]
    omega

theorem Archive.append {m : Store} {h : Nat} {es es' : List Entry} (archive : Archive m h (es ++ es')) :
    Archive m (archiveEnd h es) es' := by
  induction es generalizing h with
  | nil => exact archive
  | cons e es ih => exact ih archive.2

theorem Archive.at_headers {m : Store} {h : Nat} {es : List Entry} (archive : Archive m h es) :
    ∀ x, x ∈ headers h es → x.2.At m x.1 := by
  induction es generalizing h with
  | nil => exact fun x member => absurd member List.not_mem_nil
  | cons e es ih =>
    intro x member
    rcases List.mem_cons.mp member with rfl | member
    · exact archive.1
    · exact ih archive.2 x member

section Image

theorem isHeader_congr {m m' : Store} {h : Nat} (same : ∀ x, h ≤ x → x < h + sizeofHeader → m' x = m x) :
    isHeader m' h = isHeader m h := by
  have magic : isHeader m' h = true ↔ isHeader m h = true := by
    simp only [isHeader, decide_eq_true_iff, memcmp_eq_zero, headerMagicOff]
    rw [sizeofHeader] at same
    constructor
    · exact fun all i lt => (same _ (by omega) (by omega)).symm.trans (all i lt)
    · exact fun all i lt => (same _ (by omega) (by omega)).trans (all i lt)
  exact Bool.eq_iff_iff.mpr magic

theorem Entry.At.congr {m m' : Store} {h : Nat} {e : Entry} (at' : e.At m h)
    (same : ∀ x, h ≤ x → x < h + sizeofHeader → m' x = m x) : e.At m' h := by
  have short := e.short
  have fits := e.fits
  rw [headerNameSize] at short
  rw [headerSizeSize] at fits
  have bytes (a n : Nat) (low : h ≤ a) (high : a + n ≤ h + sizeofHeader) : m'.bytes a n = m.bytes a n :=
    Store.bytes_congr fun x l r => same x (by omega) (by omega)
  rw [sizeofHeader] at bytes
  refine ⟨(isHeader_congr same).trans at'.magic, ?_, ?_, fun lt => ?_, ?_⟩
  · rw [bytes h _ (Nat.le_refl h) (by omega)]
    exact at'.name
  · rw [headerSizeOff, bytes _ _ (by omega) (by omega)]
    exact at'.size
  · rw [headerSizeSize] at lt
    rw [headerSizeOff, same _ (by omega) (by rw [sizeofHeader]; omega)]
    exact at'.ends lt
  · rw [headerTypeOff, same _ (by omega) (by rw [sizeofHeader]; omega)]
    exact at'.type

theorem Archive.congr {m m' : Store} {h : Nat} {es : List Entry} (archive : Archive m h es)
    (same : ∀ x, h ≤ x → m' x = m x) : Archive m' h es := by
  induction es generalizing h with
  | nil => exact (isHeader_congr fun x low _ => same x low).trans archive
  | cons e es ih =>
    refine ⟨archive.1.congr fun x low _ => same x low, ih archive.2 fun x low => same x ?_⟩
    exact Nat.le_trans (Nat.le_of_add_right_le (e.le_next h)) low

-- The bytes of a header, in place, and those of an archive whose files hold zeros.

def Entry.stores (e : Entry) (h : Nat) : List (Nat × List Byte) :=
  [(h, e.name.1), (h + headerSizeOff, e.digits), (h + headerTypeOff, [e.type]), (h + headerMagicOff, ustar)]

def archiveImage : Nat → List Entry → Store
  | _, [] => fun _ => 0
  | h, e :: es => (archiveImage (e.next h) es).writeAll (e.stores h)

theorem Entry.stores_inside (e : Entry) (h : Nat) : ∀ t, t ∈ e.stores h → h ≤ t.1 ∧ t.1 + t.2.length ≤ h + sizeofHeader := by
  have short := e.short
  have fits := e.fits
  rw [headerNameSize] at short
  rw [headerSizeSize] at fits
  simp only [stores, headerSizeOff, headerTypeOff, headerMagicOff, sizeofHeader, List.forall_mem_cons, ustar,
    List.length_cons, List.length_nil]
  refine ⟨by omega, by omega, by omega, by omega, fun t member => absurd member List.not_mem_nil⟩

theorem Entry.stores_apart (e : Entry) (h : Nat) :
    (e.stores h).Pairwise fun s t => s.1 + s.2.length ≤ t.1 ∨ t.1 + t.2.length ≤ s.1 := by
  have short := e.short
  have fits := e.fits
  rw [headerNameSize] at short
  rw [headerSizeSize] at fits
  simp only [stores, headerSizeOff, headerTypeOff, headerMagicOff, List.pairwise_cons, List.forall_mem_cons,
    List.length_singleton]
  refine ⟨⟨by omega, by omega, by omega, ?_⟩, ⟨by omega, by omega, ?_⟩, ⟨by omega, ?_⟩, ?_, List.Pairwise.nil⟩ <;>
    exact fun t member => absurd member List.not_mem_nil

theorem archiveImage_below {h : Nat} {es : List Entry} (x : Nat) (below : x < h) : archiveImage h es x = 0 := by
  induction es generalizing h with
  | nil => rfl
  | cons e es ih =>
    have next : x < e.next h := Nat.lt_of_lt_of_le below (Nat.le_of_add_right_le (e.le_next h))
    rw [archiveImage, Store.writeAll_outside _ _ x fun t member => .inl (Nat.lt_of_lt_of_le below (e.stores_inside h t member).1)]
    exact ih next

theorem Entry.at_image (e : Entry) (h : Nat) (m : Store) (blank : ∀ x, x < h + sizeofHeader → m x = 0) :
    e.At (m.writeAll (e.stores h)) h := by
  have short := e.short
  have fits := e.fits
  rw [headerNameSize] at short
  rw [headerSizeSize] at fits
  rw [sizeofHeader] at blank
  have stored := Store.bytes_writeAll (e.stores h) (e.stores_apart h) m
  simp only [stores, List.forall_mem_cons] at stored
  obtain ⟨name, size, type, magic, -⟩ := stored
  -- Between the fields there is nothing but zeros.
  have gap (x : Nat) (inside : x < h + 512) (name : h + e.name.1.length ≤ x)
      (size : x < h + 124 ∨ h + 124 + e.digits.length ≤ x) (others : x < h + 156) : m.writeAll (e.stores h) x = 0 := by
    rw [Store.writeAll_outside, blank x inside]
    simp only [stores, List.forall_mem_cons, headerSizeOff, headerTypeOff, headerMagicOff]
    exact ⟨.inr name, size, .inl others, .inl (by omega), fun t member => absurd member List.not_mem_nil⟩
  refine ⟨?_, ?_, size, fun lt => ?_, ?_⟩
  · rw [isHeader, decide_eq_true_iff, memcmp_eq_zero]
    intro i lt
    have read := Store.bytes_get (m.writeAll (e.stores h)) (h + headerMagicOff) 6 i lt
    rw [show (m.writeAll (e.stores h)).bytes (h + headerMagicOff) 6 = ustar from magic] at read
    exact (List.getD_eq_getElem?_getD ..).symm ▸ (congrArg (·.getD 0) read).symm
  · rw [Store.bytes_add, Store.bytes, Store.bytes]
    exact congrArg₂ (· ++ [·]) name (gap _ (by omega) (Nat.le_refl _) (by omega) (by omega))
  · rw [headerSizeSize] at lt
    exact gap _ (by rw [headerSizeOff]; omega) (by rw [headerSizeOff]; omega) (.inr (Nat.le_refl _)) (by rw [headerSizeOff]; omega)
  · exact (List.cons.inj type).1

/-- Each list of entries has an archive. -/
theorem archiveImage_archive (h : Nat) (es : List Entry) : Archive (archiveImage h es) h es := by
  induction es generalizing h with
  | nil =>
    show decide (memcmp (fun _ => 0) (fun i => ustar.getD i 0) 6 = 0) = false
    decide
  | cons e es ih =>
    refine ⟨e.at_image h _ fun x below => archiveImage_below x (Nat.lt_of_lt_of_le below (e.le_next h)), ?_⟩
    refine (ih (e.next h)).congr fun x low => Store.writeAll_outside _ _ x fun t member => .inr ?_
    exact Nat.le_trans (Nat.le_trans (e.stores_inside h t member).2 (e.le_next h)) low

end Image

-- A file "./boot" of three bytes.
def bootFile : Entry := ⟨⟨[0x2e, 0x2f, 0x62, 0x6f, 0x6f, 0x74], by decide⟩, [0x33], 0x30, rfl, by decide, by decide, by decide⟩

theorem bootFile_at (es : List Entry) : bootFile.At (archiveImage ramdisk (bootFile :: es)) ramdisk :=
  (archiveImage_archive ramdisk (bootFile :: es)).1

end Anthill
