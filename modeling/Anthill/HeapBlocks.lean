import Anthill.Heap
import Anthill.Linked

set_option autoImplicit false

namespace Anthill

open Buddy LinkedList

variable (linked : Prop) (other : Nat → Bool)

namespace Arena

/-- A block leads nowhere, to the block on its right, or to where a chunk begins or has begun. -/
def Link (h : Arena) (a : Nat) : Prop :=
  (h.next a = a + 2 ^ h.order a ∧ page (a + 2 ^ h.order a) = page a) ∨
    mallocBlockSize ∣ h.next a ∧ (h.next a = 0 ∨ other (h.next a) = false)

def Chunk (c : Nat) : Prop :=
  mallocBlockSize ∣ c ∧ c ≠ 0 ∧ c + mallocBlockSize ≤ 2 ^ 64 ∧ other c = false

/-- What lies between calls: the blocks of the heap, and the pointers in use with the sizes asked for. The part
`listed` is kept by a process whose calls keep the list in order. -/
structure Sound (h : Arena) (blocks : Set Nat) (live : List (Nat × Nat)) : Prop where
  tiled : Tiled 5 mallocMaxOrder {c | c ∈ h.chunks} blocks h.order
  chunk : ∀ c, c ∈ h.chunks → Chunk other c
  links : ∀ a, a ∈ blocks → h.Link other a
  prevs : ∀ c, c ∈ h.chunks → 32 ∣ h.prev c
  first : h.firstBlock = 0 ∧ h.chunks = [] ∨ h.firstBlock ∈ h.chunks
  pointers : ∀ x, x ∈ live → ∃ b, b ∈ blocks ∧ x.1 = b + blockSize ∧ h.available b = false ∧
    blockSize + x.2 ≤ 2 ^ h.order b
  once : (live.map Prod.fst).Nodup
  listed : linked → Listing h.next h.firstBlock blocks ∧
    (∀ a, a ∈ blocks → page (a + 2 ^ h.order a) = page a → h.next a = a + 2 ^ h.order a) ∧ h.strays = []

theorem header_order {h h' : Arena} {a : Nat} (same : h'.header a = h.header a) : h'.order a = h.order a :=
  congrArg (fun x : Header => x.k.toNat) same

theorem header_next {h h' : Arena} {a : Nat} (same : h'.header a = h.header a) : h'.next a = h.next a :=
  congrArg (fun x : Header => x.next.toNat) same

theorem header_prev {h h' : Arena} {a : Nat} (same : h'.header a = h.header a) : h'.prev a = h.prev a :=
  congrArg (fun x : Header => x.prev.toNat) same

theorem header_available {h h' : Arena} {a : Nat} (same : h'.header a = h.header a) : h'.available a = h.available a :=
  congrArg (fun x : Header => x.available != 0) same

theorem Link.congr {h h' : Arena} {a : Nat} (link : h.Link other a) (order : h'.order a = h.order a)
    (next : h'.next a = h.next a) : h'.Link other a := by
  rw [Link, order, next]
  exact link

theorem use_inside {h : Arena} {b : Nat} (chunk : page b ∈ h.chunks) (whole : page (b + blockSize - 1) = page b) :
    h.use other b = .ok () h := if_pos ⟨chunk, whole⟩

-- An access goes through, it goes through outside of the chunks, or it faults.
theorem use_cases (h : Arena) (b : Nat) : h.use other b = .ok () h ∨
    h.use other b = .ok () { h with strays := b :: h.strays } ∨ h.use other b = .fault := by
  rw [use]
  split_ifs
  · exact .inl rfl
  · exact .inr (.inl rfl)
  · exact .inr (.inr rfl)

/-- Memory where only headers of these blocks have changed. -/
def OnlyHeaders (bs : Set Nat) (h h' : Arena) : Prop :=
  ∀ y, (∀ b, b ∈ bs → y < b ∨ b + blockSize ≤ y) → h'.mem y = h.mem y

section OnlyHeaders

variable {bs bs' : Set Nat} {h h' h'' : Arena}

theorem OnlyHeaders.refl (h : Arena) : OnlyHeaders bs h h := fun _ _ => rfl

theorem OnlyHeaders.put (h : Arena) {b : Nat} (member : b ∈ bs) (x : Header) : OnlyHeaders bs h (h.put b x) :=
  fun y outside => h.put_outside b x y (outside b member)

theorem OnlyHeaders.trans (first : OnlyHeaders bs h h') (second : OnlyHeaders bs h' h'') : OnlyHeaders bs h h'' :=
  fun y outside => (second y outside).trans (first y outside)

theorem OnlyHeaders.mono (first : OnlyHeaders bs h h') (more : bs ⊆ bs') : OnlyHeaders bs' h h' :=
  fun y outside => first y fun b member => outside b (more member)

/-- What merges and changes of links leave: the memory beside headers, and which blocks are free. -/
structure Relinked (bs : Set Nat) (h h' : Arena) : Prop where
  headers : OnlyHeaders bs h h'
  marks : ∀ a, 32 ∣ a → h'.available a = h.available a

theorem Relinked.refl (h : Arena) : Relinked bs h h := ⟨.refl h, fun _ _ => rfl⟩

theorem Relinked.put (h : Arena) {b : Nat} (member : b ∈ bs) (aligned : 32 ∣ b) (k : BitVec 8)
    (prev next : BitVec 64) : Relinked bs h (h.put b ⟨(h.header b).available, k, prev, next⟩) :=
  ⟨.put h member _, fun _ ha => field_put h (fun x => x.available != 0) _ ha aligned rfl⟩

theorem Relinked.trans (first : Relinked bs h h') (second : Relinked bs h' h'') : Relinked bs h h'' :=
  ⟨first.headers.trans second.headers, fun a ha => (second.marks a ha).trans (first.marks a ha)⟩

theorem Relinked.mono (first : Relinked bs h h') (more : bs ⊆ bs') : Relinked bs' h h' :=
  ⟨first.headers.mono more, first.marks⟩

/-- The blocks of `bs` but `a` are as they were, and a last one may lead to a new block. -/
structure KeptBut (bs : Set Nat) (a : Nat) (h h' : Arena) : Prop where
  prev : ∀ b, b ∈ bs → h'.prev b = h.prev b
  order : ∀ b, b ∈ bs → b ≠ a → h'.order b = h.order b
  available : ∀ b, b ∈ bs → b ≠ a → h'.available b = h.available b
  next : ∀ b, b ∈ bs → b ≠ a → h.next b ≠ 0 → h'.next b = h.next b
  first : h.firstBlock ≠ 0 → h'.firstBlock = h.firstBlock
  chunks : ∀ c, c ∈ h.chunks → c ∈ h'.chunks

theorem KeptBut.trans {a : Nat} (first : KeptBut bs a h h') (second : KeptBut bs' a h' h'') (more : bs ⊆ bs') :
    KeptBut bs a h h'' where
  prev b hb := (second.prev b (more hb)).trans (first.prev b hb)
  order b hb ne := (second.order b (more hb) ne).trans (first.order b hb ne)
  available b hb ne := (second.available b (more hb) ne).trans (first.available b hb ne)
  next b hb ne leads := by
    have same := first.next b hb ne leads
    exact (second.next b (more hb) ne (same ▸ leads)).trans same
  first some := by
    have same := first.first some
    exact (second.first (same ▸ some)).trans same
  chunks c hc := second.chunks c (first.chunks c hc)

end OnlyHeaders

section Sound

variable {linked other} {h : Arena} {blocks : Set Nat} {live : List (Nat × Nat)}
  (sound : h.Sound linked other blocks live)

include sound

namespace Sound

theorem dvd {b : Nat} (hb : b ∈ blocks) : 32 ∣ b := dvd_of_le (sound.tiled.bounds b hb).1 (sound.tiled.aligned b hb)

theorem last_byte {b : Nat} (hb : b ∈ blocks) : page (b + blockSize - 1) = page b := by
  have low := floor_le mallocMaxOrder b
  have high := sound.tiled.extent hb
  have size := Nat.pow_le_pow_right (by decide : 0 < 2) (sound.tiled.bounds b hb).1
  refine (floor_eq_iff (dvd_floor _ b)).mpr ?_
  rw [blockSize]
  omega

theorem use {b : Nat} (hb : b ∈ blocks) : h.use other b = .ok () h :=
  use_inside other (sound.tiled.inside b hb) (sound.last_byte hb)

theorem base_mem {c : Nat} (hc : c ∈ h.chunks) : c ∈ blocks := sound.tiled.base hc

/-- A block ends within the address space. -/
theorem bound {b : Nat} (hb : b ∈ blocks) : b + 2 ^ h.order b ≤ 2 ^ 64 := by
  have extent := sound.tiled.extent hb
  have chunk := (sound.chunk _ (sound.tiled.inside b hb)).2.2.1
  exact Nat.le_trans extent chunk

/-- Another heap with the same blocks, where only pointers have come or gone. -/
theorem relive {h' : Arena} {live' : List (Nat × Nat)} (order : ∀ a, a ∈ blocks → h'.order a = h.order a)
    (next : ∀ a, a ∈ blocks → h'.next a = h.next a) (prev : ∀ a, a ∈ blocks → h'.prev a = h.prev a)
    (chunks : h'.chunks = h.chunks) (first : h'.firstBlock = h.firstBlock) (strays : linked → h'.strays = h.strays)
    (pointers : ∀ x, x ∈ live' → ∃ b, b ∈ blocks ∧ x.1 = b + blockSize ∧ h'.available b = false ∧
      blockSize + x.2 ≤ 2 ^ h.order b) (once : (live'.map Prod.fst).Nodup) :
    h'.Sound linked other blocks live' where
  tiled := by
    rw [chunks]
    exact sound.tiled.congr order
  chunk c hc := sound.chunk c (chunks ▸ hc)
  links a ha := (sound.links a ha).congr other (order a ha) (next a ha)
  prevs c hc := by
    rw [chunks] at hc
    rw [prev c (sound.base_mem hc)]
    exact sound.prevs c hc
  first := by
    rw [first, chunks]
    exact sound.first
  pointers x hx := by
    obtain ⟨b, hb, is, used, fits⟩ := pointers x hx
    exact ⟨b, hb, is, used, order b hb ▸ fits⟩
  once := once
  listed is := by
    obtain ⟨listing, right, clean⟩ := sound.listed is
    rw [first, strays is]
    refine ⟨listing.frame next, fun a ha same => ?_, clean⟩
    rw [order a ha] at same ⊢
    rw [next a ha]
    exact right a ha same

theorem pointers_frame {h' : Arena} {x : Nat × Nat} (hx : x ∈ live) (b' : Nat) (free : h.available b' = true)
    (same : ∀ b, b ∈ blocks → b ≠ b' → h'.order b = h.order b ∧ h'.available b = h.available b) :
    ∃ b, b ∈ blocks ∧ b ≠ b' ∧ x.1 = b + blockSize ∧ h'.available b = false ∧ blockSize + x.2 ≤ 2 ^ h'.order b := by
  obtain ⟨b, hb, is, used, fits⟩ := sound.pointers x hx
  have ne : b ≠ b' := by
    rintro rfl
    rw [free] at used
    cases used
  obtain ⟨order, available⟩ := same b hb ne
  exact ⟨b, hb, ne, is, available.trans used, order.symm ▸ fits⟩

theorem pred_order {b j : Nat} (hb : b ∈ blocks) (was : h.order b = j + 1) : ((h.header b).k - 1).toNat = j := by
  have is : (h.header b).k.toNat = j + 1 := was
  have one : (1 : BitVec 8).toNat = 1 := rfl
  have top := (sound.tiled.bounds b hb).2
  rw [mallocMaxOrder, was] at top
  rw [BitVec.toNat_sub, is, one]
  omega

theorem succ_order {b : Nat} (hb : b ∈ blocks) : ((h.header b).k + 1).toNat = h.order b + 1 := by
  have one : (1 : BitVec 8).toNat = 1 := rfl
  have top := (sound.tiled.bounds b hb).2
  rw [mallocMaxOrder] at top
  rw [BitVec.toNat_add, one, ← order]
  omega

/-- What _split leaves in memory. -/
theorem split_headers {b j : Nat} (hb : b ∈ blocks) (was : h.order b = j + 1) (room : 5 ≤ j) :
    ∃ h', h.split other b = .ok () h' ∧
      h'.header b = { h.header b with k := (h.header b).k - 1, next := BitVec.ofNat 64 (b + 2 ^ j) } ∧
      h'.header (b + 2 ^ j) = ⟨1, (h.header b).k - 1, BitVec.ofNat 64 b, (h.header b).next⟩ ∧
      (∀ a, 32 ∣ a → a ≠ b → a ≠ b + 2 ^ j → h'.header a = h.header a) ∧
      h'.chunks = h.chunks ∧ h'.firstBlock = h.firstBlock ∧ h'.strays = h.strays ∧ OnlyHeaders {b, b + 2 ^ j} h h' := by
  have aligned := sound.dvd hb
  have size : 32 ∣ 2 ^ j := Nat.pow_dvd_pow 2 room
  have positive := Nat.two_pow_pos j
  have new : 32 ∣ b + 2 ^ j := (Nat.dvd_add_right aligned).mpr size
  have k := sound.pred_order hb was
  have inside : page (b + 2 ^ j) = page b ∧ page (b + 2 ^ j + blockSize - 1) = page b := by
    have low := floor_le mallocMaxOrder b
    have high := sound.tiled.extent hb
    rw [was, Nat.pow_succ] at high
    have large := Nat.le_of_dvd positive size
    constructor <;> refine (floor_eq_iff (dvd_floor _ b)).mpr ?_
    · omega
    · rw [blockSize]
      omega
  let h₁ := h.put b { h.header b with k := (h.header b).k - 1 }
  let h₂ := h₁.put (b + 2 ^ j) ⟨1, (h₁.header b).k, BitVec.ofNat 64 b, (h₁.header b).next⟩
  have first : h₁.header b = { h.header b with k := (h.header b).k - 1 } := header_put ..
  have half : h₁.order b = j := by rwa [order, first]
  have second : h₂.header b = h₁.header b := header_put_of_ne _ _ aligned new (by omega)
  have headers : OnlyHeaders {b, b + 2 ^ j} h h₂ := (OnlyHeaders.put h (.inl rfl) _).trans (.put h₁ (.inr rfl) _)
  refine ⟨h₂.put b { h₂.header b with next := BitVec.ofNat 64 (b + 2 ^ j) }, ?_, ?_, ?_, ?_, rfl, rfl, rfl,
    headers.trans (.put h₂ (.inl rfl) _)⟩
  · have chunk : page (b + 2 ^ j) ∈ h₁.chunks := by
      rw [inside.1]
      exact sound.tiled.inside b hb
    have used : h₁.use other (b + 2 ^ j) = .ok () h₁ := use_inside other chunk (inside.2.trans inside.1.symm)
    simp only [split]
    rw [half, used]
    rfl
  · rw [header_put, second, first]
  · rw [header_put_of_ne _ _ new aligned (by omega), header_put, first]
  · intro a ha notB notNew
    rw [header_put_of_ne _ _ ha aligned notB, header_put_of_ne _ _ ha new notNew, header_put_of_ne _ _ ha aligned notB]

/-- A block becomes two. -/
theorem halved {h' : Arena} {b j : Nat} (hb : b ∈ blocks) (free : h.available b = true) (was : h.order b = j + 1)
    (room : 5 ≤ j) (left : h'.order b = j ∧ h'.next b = b + 2 ^ j ∧ h'.prev b = h.prev b)
    (right : h'.order (b + 2 ^ j) = j ∧ h'.next (b + 2 ^ j) = h.next b)
    (same : ∀ a, 32 ∣ a → a ≠ b → a ≠ b + 2 ^ j → h'.header a = h.header a)
    (chunks : h'.chunks = h.chunks) (first : h'.firstBlock = h.firstBlock) (strays : h'.strays = h.strays) :
    h'.Sound linked other (insert (b + 2 ^ j) blocks) live := by
  have aligned : 2 ^ (j + 1) ∣ b := was ▸ sound.tiled.aligned b hb
  have positive := Nat.two_pow_pos j
  have double : b + 2 ^ j + 2 ^ j = b + 2 ^ h.order b := by
    rw [was, Nat.pow_succ]
    omega
  have top : j + 1 ≤ mallocMaxOrder := was ▸ (sound.tiled.bounds b hb).2
  have samePage : page (b + 2 ^ j) = page b := floor_half aligned top
  have new := sound.tiled.half_notMem hb was
  have old (a : Nat) (ha : a ∈ blocks) (ne : a ≠ b) : h'.header a = h.header a :=
    same a (sound.dvd ha) ne fun is => new (is ▸ ha)
  refine ⟨?_, fun c hc => sound.chunk c (chunks ▸ hc), ?_, ?_, ?_, ?_, sound.once, ?_⟩
  · rw [chunks]
    exact sound.tiled.split hb was room left.1 right.1 fun a ha ne => header_order (old a ha ne)
  · rintro a (rfl | ha)
    · rcases sound.links b hb with ⟨is, here⟩ | away
      · exact .inl ⟨by rw [right.2, right.1, double, is], by rw [right.1, double, here, samePage]⟩
      · exact .inr (by rwa [right.2])
    · by_cases is : a = b
      · subst is
        exact .inl ⟨by rw [left.1, left.2.1], by rw [left.1, samePage]⟩
      · exact (sound.links a ha).congr other (header_order (old a ha is)) (header_next (old a ha is))
  · intro c hc
    rw [chunks] at hc
    by_cases is : c = b
    · subst is
      rw [left.2.2]
      exact sound.prevs c hc
    · rw [header_prev (old c (sound.base_mem hc) is)]
      exact sound.prevs c hc
  · rw [first, chunks]
    exact sound.first
  · intro x hx
    obtain ⟨a, ha, -, fits⟩ := sound.pointers_frame hx b free fun a ha ne =>
      ⟨header_order (old a ha ne), header_available (old a ha ne)⟩
    exact ⟨a, .inr ha, fits⟩
  · intro is
    obtain ⟨listing, onward, clean⟩ := sound.listed is
    rw [first, strays]
    refine ⟨listing.insert hb (by omega) left.2.1 right.2 fun a ha ne => header_next (old a ha ne), ?_, clean⟩
    rintro a (rfl | ha) within
    · rw [right.1, double, samePage] at within
      rw [right.1, right.2, double]
      exact onward b hb within
    · by_cases here : a = b
      · subst here
        rw [left.1, left.2.1]
      · rw [header_order (old a ha here)] at within ⊢
        rw [header_next (old a ha here)]
        exact onward a ha within

theorem split {b j : Nat} (hb : b ∈ blocks) (free : h.available b = true) (was : h.order b = j + 1) (room : 5 ≤ j) :
    ∃ h', h.split other b = .ok () h' ∧ h'.Sound linked other (insert (b + 2 ^ j) blocks) live ∧
      h'.chunks = h.chunks ∧ h'.firstBlock = h.firstBlock ∧ ∀ a, a ∈ blocks → a ≠ b → h'.next a = h.next a := by
  obtain ⟨h', is, left, right, same, chunks, first, strays, -⟩ := sound.split_headers hb was room
  have bounds := sound.bound hb
  have positive := Nat.two_pow_pos j
  rw [was, Nat.pow_succ] at bounds
  have k := sound.pred_order hb was
  have new := sound.tiled.half_notMem hb was
  refine ⟨h', is, ?_, chunks, first, fun a ha ne => header_next (same a (sound.dvd ha) ne fun is => new (is ▸ ha))⟩
  refine sound.halved hb free was room ⟨?_, ?_, ?_⟩ ⟨?_, ?_⟩ same chunks first strays
  · rw [order, left]
    exact k
  · rw [next, left, BitVec.toNat_ofNat, Nat.mod_eq_of_lt (by omega)]
  · rw [prev, left, prev]
  · rw [order, right]
    exact k
  · rw [next, right, next]

/-- Two blocks become one. -/
theorem join {a j : Nat} (ha : a ∈ blocks) (hu : a + 2 ^ j ∈ blocks) (left : h.order a = j)
    (right : h.order (a + 2 ^ j) = j) (aligned : 2 ^ (j + 1) ∣ a) (room : j < mallocMaxOrder)
    (freeLeft : h.available a = true) (freeRight : h.available (a + 2 ^ j) = true) :
    (h.join a (a + 2 ^ j)).Sound linked other (blocks \ {a + 2 ^ j}) live ∧ (h.join a (a + 2 ^ j)).order a = j + 1 ∧
      (h.join a (a + 2 ^ j)).available a = true := by
  have positive := Nat.two_pow_pos j
  have ne : a + 2 ^ j ≠ a := by omega
  have dvd := sound.dvd ha
  have here := h.header_join dvd (sound.dvd hu) ne
  have same (b : Nat) (hb : b ∈ blocks) (other : b ≠ a) : (h.join a (a + 2 ^ j)).header b = h.header b :=
    h.header_join_of_ne (sound.dvd hb) dvd other
  have now : (h.join a (a + 2 ^ j)).order a = j + 1 := by
    rw [order, here, ← left]
    exact sound.succ_order ha
  have link : (h.join a (a + 2 ^ j)).next a = h.next (a + 2 ^ j) := by rw [next, here, next]
  have available : (h.join a (a + 2 ^ j)).available a = h.available a := by rw [available, here, available]
  have double : a + 2 ^ j + 2 ^ j = a + 2 ^ (j + 1) := by
    rw [Nat.pow_succ]
    omega
  have samePage : page (a + 2 ^ j) = page a := floor_half aligned room
  refine ⟨⟨?_, sound.chunk, ?_, ?_, sound.first, ?_, sound.once, ?_⟩, now, available.trans freeLeft⟩
  · exact sound.tiled.merge ha hu left right aligned room now fun b hb other _ => header_order (same b hb other)
  · rintro b ⟨hb, -⟩
    by_cases is : b = a
    · subst is
      rcases sound.links _ hu with ⟨onward, within⟩ | away
      · rw [right, double] at onward within
        exact .inl ⟨by rw [link, now, onward], by rw [now, within, samePage]⟩
      · exact .inr (by rwa [link])
    · exact (sound.links b hb).congr other (header_order (same b hb is)) (header_next (same b hb is))
  · intro c hc
    by_cases is : c = a
    · subst is
      rw [prev, here, ← prev]
      exact sound.prevs c hc
    · rw [header_prev (same c (sound.base_mem hc) is)]
      exact sound.prevs c hc
  · intro x hx
    obtain ⟨b, hb, -, is, used, fits⟩ := sound.pointers_frame hx a freeLeft fun b hb other =>
      ⟨header_order (same b hb other), header_available (same b hb other)⟩
    refine ⟨b, ⟨hb, ?_⟩, is, used, fits⟩
    rintro rfl
    rw [header_available (same _ hu ne), freeRight] at used
    cases used
  · intro is
    obtain ⟨listing, onward, clean⟩ := sound.listed is
    have next := onward a ha (by rw [left, samePage])
    rw [left] at next
    refine ⟨listing.skip ha next (listing.ne_zero hu) link fun b hb other _ => header_next (same b hb other), ?_, clean⟩
    rintro b ⟨hb, -⟩ within
    by_cases is : b = a
    · subst is
      rw [now] at within
      have last := onward _ hu (by rw [right, double, within, samePage])
      rw [link, now, last, right, double]
    · rw [header_order (same b hb is)] at within ⊢
      rw [header_next (same b hb is)]
      exact onward b hb within

theorem no_blocks (none : h.firstBlock = 0) : h.chunks = [] ∧ blocks = ∅ := by
  have chunks : h.chunks = [] := by
    rcases sound.first with ⟨-, empty⟩ | member
    · exact empty
    · exact absurd none (sound.chunk _ member).2.1
  refine ⟨chunks, Set.eq_empty_of_forall_notMem fun a ha => ?_⟩
  have inside := sound.tiled.inside a ha
  rw [chunks] at inside
  exact absurd inside List.not_mem_nil

theorem chunk_notMem {c : Nat} (aligned : mallocBlockSize ∣ c) (new : c ∉ h.chunks) : c ∉ blocks := by
  intro member
  have inside := sound.tiled.inside c member
  rw [floor_self aligned] at inside
  exact new inside

/-- A chunk that is one block comes at the end of the list. -/
theorem grown {h' : Arena} {c : Nat} (last : Nat) (fresh : Chunk other c) (new : c ∉ h.chunks)
    (whole : h'.order c = mallocMaxOrder ∧ h'.next c = 0 ∧ 32 ∣ h'.prev c)
    (same : ∀ a, a ∈ blocks → h'.order a = h.order a ∧ h'.prev a = h.prev a ∧ h'.available a = h.available a)
    (next : ∀ a, a ∈ blocks → a ≠ last → h'.next a = h.next a) (chunks : h'.chunks = c :: h.chunks)
    (strays : h'.strays = h.strays)
    (place : h.firstBlock = 0 ∧ h'.firstBlock = c ∨
      last ∈ blocks ∧ h'.firstBlock = h.firstBlock ∧ h'.next last = c ∧ (linked → h.next last = 0)) :
    h'.Sound linked other (insert c blocks) live := by
  have away := sound.chunk_notMem fresh.1 new
  have regions : {d | d ∈ h'.chunks} = insert c {d | d ∈ h.chunks} := by
    ext d
    rw [chunks]
    exact List.mem_cons
  refine ⟨?_, ?_, ?_, ?_, ?_, ?_, sound.once, ?_⟩
  · rw [regions]
    exact sound.tiled.grow fresh.1 new (by decide) whole.1 fun a ha => (same a ha).1
  · intro d hd
    rw [chunks] at hd
    rcases List.mem_cons.mp hd with rfl | hd
    · exact fresh
    · exact sound.chunk d hd
  · rintro a (rfl | ha)
    · refine .inr ?_
      rw [whole.2.1]
      exact ⟨Nat.dvd_zero _, .inl rfl⟩
    · by_cases is : a = last
      · subst is
        rcases place with ⟨none, -⟩ | ⟨-, -, now, -⟩
        · rw [(sound.no_blocks none).2] at ha
          exact ha.elim
        · refine .inr ?_
          rw [now]
          exact ⟨fresh.1, .inr fresh.2.2.2⟩
      · exact (sound.links a ha).congr other (same a ha).1 (next a ha is)
  · intro d hd
    rw [chunks] at hd
    rcases List.mem_cons.mp hd with rfl | hd
    · exact whole.2.2
    · rw [(same d (sound.base_mem hd)).2.1]
      exact sound.prevs d hd
  · right
    rcases place with ⟨-, is⟩ | ⟨member, is, -, -⟩
    · rw [is, chunks]
      exact List.mem_cons_self ..
    · rw [is, chunks]
      rcases sound.first with ⟨none, -⟩ | there
      · rw [(sound.no_blocks none).2] at member
        exact member.elim
      · exact List.mem_cons_of_mem _ there
  · intro x hx
    obtain ⟨b, hb, is, used, fits⟩ := sound.pointers x hx
    exact ⟨b, .inr hb, is, (same b hb).2.2.trans used, (same b hb).1.symm ▸ fits⟩
  · intro is
    obtain ⟨listing, onward, clean⟩ := sound.listed is
    rw [strays]
    have onlyC : page (c + 2 ^ h'.order c) ≠ page c := by
      rw [whole.1]
      intro within
      have low := lt_floor mallocMaxOrder (c + 2 ^ mallocMaxOrder)
      rw [page, page, floor_self fresh.1] at within
      rw [within] at low
      omega
    rcases place with ⟨none, first⟩ | ⟨member, first, now, ends⟩
    · obtain ⟨-, rfl⟩ := sound.no_blocks none
      refine ⟨?_, ?_, clean⟩
      · refine ⟨[c], Path.cons.mpr ⟨first, fresh.2.1, whole.2.1⟩, fun a => ?_⟩
        simp
      · rintro a (rfl | ha) within
        · exact absurd within onlyC
        · exact ha.elim
    · rw [first]
      refine ⟨listing.insert member fresh.2.1 now (by rw [whole.2.1, ends is]) fun a ha ne => next a ha ne, ?_, clean⟩
      rintro a (rfl | ha) within
      · exact absurd within onlyC
      · rw [(same a ha).1] at within ⊢
        by_cases here : a = last
        · subst here
          have on := onward a ha within
          rw [ends is] at on
          exact absurd (Nat.add_eq_zero_iff.mp on.symm).1 (listing.ne_zero ha)
        · rw [next a ha here]
          exact onward a ha within

/-- A chunk that is one free block goes. -/
theorem dropped {h' : Arena} {b : Nat} (hb : b ∈ blocks) (whole : h.order b = mallocMaxOrder)
    (free : h.available b = true) (notFirst : b ≠ h.firstBlock) (p : Nat)
    (same : ∀ a, a ∈ blocks → h'.order a = h.order a ∧ h'.prev a = h.prev a ∧ h'.available a = h.available a)
    (next : ∀ a, a ∈ blocks → h'.next a = if a = p then h.next b else h.next a)
    (chunks : ∀ c, c ∈ h'.chunks ↔ c ∈ h.chunks ∧ c ≠ b) (first : h'.firstBlock = h.firstBlock)
    (strays : linked → h'.strays = h.strays) (precedes : linked → p ∈ blocks ∧ h.next p = b) :
    h'.Sound linked other (blocks \ {b}) live := by
  have self : page b = b := floor_self (whole ▸ sound.tiled.aligned b hb)
  have chunk : b ∈ h.chunks := by
    have inside := sound.tiled.inside b hb
    rwa [← page, self] at inside
  have outside : page (b + 2 ^ mallocMaxOrder) ≠ page b := by
    intro within
    have low := lt_floor mallocMaxOrder (b + 2 ^ mallocMaxOrder)
    rw [← page, within, self] at low
    omega
  have regions : {c | c ∈ h'.chunks} = {c | c ∈ h.chunks} \ {b} := Set.ext chunks
  refine ⟨?_, fun c hc => sound.chunk c ((chunks c).mp hc).1, ?_, ?_, ?_, ?_, sound.once, ?_⟩
  · rw [regions]
    exact (sound.tiled.drop hb whole).congr fun a ha => (same a ha.1).1
  · rintro a ⟨ha, -⟩
    have link := next a ha
    split_ifs at link with here
    · rcases sound.links b hb with ⟨-, within⟩ | away
      · rw [whole] at within
        exact absurd within outside
      · exact .inr (by rwa [link])
    · exact (sound.links a ha).congr other (same a ha).1 link
  · intro c hc
    have before := ((chunks c).mp hc).1
    rw [(same c (sound.base_mem before)).2.1]
    exact sound.prevs c before
  · right
    rw [first, chunks]
    rcases sound.first with ⟨none, -⟩ | there
    · rw [(sound.no_blocks none).2] at hb
      exact hb.elim
    · exact ⟨there, notFirst.symm⟩
  · intro x hx
    obtain ⟨a, ha, ne, is, used, fits⟩ := sound.pointers_frame hx b free fun a ha _ =>
      ⟨(same a ha).1, (same a ha).2.2⟩
    exact ⟨a, ⟨ha, ne⟩, is, used, fits⟩
  · intro is
    obtain ⟨listing, onward, clean⟩ := sound.listed is
    obtain ⟨hp, link⟩ := precedes is
    rw [first, strays is]
    refine ⟨listing.skip hp link (sound.chunk b chunk).2.1 (by rw [next p hp, if_pos rfl]) fun a ha ne _ => ?_, ?_,
      clean⟩
    · rw [next a ha, if_neg ne]
    · rintro a ⟨ha, -⟩ within
      rw [(same a ha).1] at within ⊢
      rw [next a ha]
      split_ifs with here
      · subst here
        have on := onward a ha within
        have samePage : page a = b := by
          rw [← self, ← within, ← on, link]
        have same := sound.tiled.apart a b ha hb (by rwa [whole])
        have positive := Nat.two_pow_pos (h.order a)
        omega
      · exact onward a ha within

theorem ne_zero {b : Nat} (hb : b ∈ blocks) : b ≠ 0 := by
  rintro rfl
  have nonnull := (sound.chunk _ (sound.tiled.inside 0 hb)).2.1
  exact nonnull (floor_self (Nat.dvd_zero _))

/-- What _expand leaves in memory. -/
theorem expand_headers {c last : Nat} (fresh : Chunk other c) (new : c ∉ h.chunks)
    (place : last = 0 ∨ last ∈ blocks) :
    ∃ h', h.expand other last (some c) = .ok 0 h' ∧
      h'.header c = ⟨1, BitVec.ofNat 8 mallocMaxOrder, BitVec.ofNat 64 last, 0⟩ ∧
      (∀ a, a ∈ blocks → h'.header a =
        if a = last then { h.header a with next := BitVec.ofNat 64 c } else h.header a) ∧
      h'.chunks = c :: h.chunks ∧ h'.strays = h.strays ∧ h'.firstBlock = (if last = 0 then c else h.firstBlock) ∧
      OnlyHeaders (insert c blocks) h h' := by
  let h₀ : Arena := { h with chunks := c :: h.chunks }
  let h₁ := h₀.put c { h₀.header c with available := 1, k := BitVec.ofNat 8 mallocMaxOrder, next := 0 }
  let h₂ := h₁.put c { h₁.header c with prev := BitVec.ofNat 64 last }
  have used : h₀.use other c = .ok () h₀ := by
    have self : page c = c := floor_self fresh.1
    refine use_inside other (self.symm ▸ List.mem_cons_self ..) ?_
    rw [self]
    refine (floor_eq_iff fresh.1).mpr ?_
    rw [blockSize, mallocMaxOrder]
    omega
  have dvd : 32 ∣ c := dvd_of_le (by decide : 5 ≤ mallocMaxOrder) fresh.1
  have here : h₂.header c = ⟨1, BitVec.ofNat 8 mallocMaxOrder, BitVec.ofNat 64 last, 0⟩ := by
    rw [header_put, header_put]
  have away := sound.chunk_notMem fresh.1 new
  have same (a : Nat) (ha : a ∈ blocks) : h₂.header a = h.header a := by
    have ne : a ≠ c := fun is => away (is ▸ ha)
    rw [header_put_of_ne _ _ (sound.dvd ha) dvd ne, header_put_of_ne _ _ (sound.dvd ha) dvd ne]
    rfl
  have started : h.expand other last (some c) = if last ≠ 0 then
      (h₂.use other last).bind fun _ h => .ok 0 (h.put last { h.header last with next := BitVec.ofNat 64 c })
      else .ok 0 { h₂ with firstBlock := c } := by
    refine (if_neg fresh.2.1).trans ?_
    exact congrArg (fun result : HeapResult Unit => result.bind _) used
  have headers : OnlyHeaders (insert c blocks) h h₂ :=
    (OnlyHeaders.put h₀ (Set.mem_insert ..) _).trans (.put h₁ (Set.mem_insert ..) _)
  rw [started]
  by_cases first : last = 0
  · refine ⟨_, if_neg (not_not.mpr first), here, fun a ha => ?_, rfl, rfl, (if_pos first).symm, headers⟩
    rw [if_neg fun is => sound.ne_zero ha (is.trans first)]
    exact same a ha
  · have member := place.resolve_left first
    have inside : page last ∈ h₂.chunks := List.mem_cons_of_mem _ (sound.tiled.inside last member)
    have use : h₂.use other last = .ok () h₂ := use_inside other inside (sound.last_byte member)
    have ne : c ≠ last := fun is => away (is ▸ member)
    rw [if_pos first, use]
    refine ⟨_, rfl, (header_put_of_ne _ _ dvd (sound.dvd member) ne).trans here, fun a ha => ?_, rfl, rfl,
      (if_neg first).symm, headers.trans (.put h₂ (.inr member) _)⟩
    split_ifs with is
    · rw [is, header_put, same last member]
    · rw [header_put_of_ne _ _ (sound.dvd ha) (sound.dvd member) is, same a ha]

theorem expand {c last : Nat} (fresh : Chunk other c) (new : c ∉ h.chunks)
    (place : last = 0 ∧ h.firstBlock = 0 ∨ last ∈ blocks ∧ (linked → h.next last = 0)) :
    ∃ h', h.expand other last (some c) = .ok 0 h' ∧ h'.Sound linked other (insert c blocks) live ∧
      h'.chunks = c :: h.chunks ∧ h'.order c = mallocMaxOrder ∧ h'.available c = true ∧
      (linked → KeptBut blocks c h h') ∧ OnlyHeaders (insert c blocks) h h' := by
  obtain ⟨h', is, here, headers, chunks, strays, first, only⟩ := sound.expand_headers fresh new (place.imp And.left And.left)
  have field {β : Type} (f : Header → β) (a : Nat) (ha : a ∈ blocks)
      (kept : f { h.header a with next := BitVec.ofNat 64 c } = f (h.header a)) : f (h'.header a) = f (h.header a) := by
    rw [headers a ha]
    split_ifs
    · exact kept
    · rfl
  have orders (a : Nat) (ha : a ∈ blocks) : h'.order a = h.order a := field (fun x => x.k.toNat) a ha rfl
  have prevs (a : Nat) (ha : a ∈ blocks) : h'.prev a = h.prev a := field (fun x => x.prev.toNat) a ha rfl
  have marks (a : Nat) (ha : a ∈ blocks) : h'.available a = h.available a := field (fun x => x.available != 0) a ha rfl
  have links (a : Nat) (ha : a ∈ blocks) (ne : a ≠ last) : h'.next a = h.next a :=
    header_next ((headers a ha).trans (if_neg ne))
  have order : h'.order c = mallocMaxOrder := congrArg (fun x : Header => x.k.toNat) here
  have free : h'.available c = true := congrArg (fun x : Header => x.available != 0) here
  have small := fresh.2.2.1
  have positive := Nat.two_pow_pos mallocMaxOrder
  rw [mallocBlockSize] at small
  have back : 32 ∣ h'.prev c := by
    rw [prev, here, BitVec.toNat_ofNat]
    rcases place with ⟨rfl, -⟩ | ⟨member, -⟩
    · exact Nat.dvd_zero _
    · exact (Nat.dvd_mod_iff (by decide)).mpr (sound.dvd member)
  have ends : h.firstBlock = 0 ∧ h'.firstBlock = c ∨
      last ∈ blocks ∧ h'.firstBlock = h.firstBlock ∧ h'.next last = c ∧ (linked → h.next last = 0) := by
    rcases place with ⟨rfl, none⟩ | ⟨member, ends⟩
    · exact .inl ⟨none, first.trans (if_pos rfl)⟩
    · refine .inr ⟨member, first.trans (if_neg (sound.ne_zero member)), ?_, ends⟩
      rw [next, headers last member, if_pos rfl]
      exact (BitVec.toNat_ofNat ..).trans (Nat.mod_eq_of_lt (by omega))
  refine ⟨h', is, ?_, chunks, order, free, fun listed => ?_, only⟩
  · exact sound.grown last fresh new ⟨order, congrArg (fun x : Header => x.next.toNat) here, back⟩
      (fun a ha => ⟨orders a ha, prevs a ha, marks a ha⟩) links chunks strays ends
  · refine ⟨prevs, fun a ha _ => orders a ha, fun a ha _ => marks a ha, fun a ha _ leads => links a ha ?_, fun some => ?_,
      fun d hd => chunks.symm ▸ List.mem_cons_of_mem _ hd⟩
    · rintro rfl
      rcases place with ⟨none, -⟩ | ⟨-, none⟩
      · exact sound.ne_zero ha none
      · exact leads (none listed)
    · rcases place with ⟨-, none⟩ | ⟨member, -⟩
      · exact absurd none some
      · exact first.trans (if_neg (sound.ne_zero member))

/-- What _shrink does to a chunk that is one free block. -/
theorem shrink {safe : Arena → Prop} {b : Nat} (hb : b ∈ blocks) (whole : h.order b = mallocMaxOrder)
    (free : h.available b = true) (notFirst : b ≠ h.firstBlock)
    (precedes : linked → h.prev b ∈ blocks ∧ h.next (h.prev b) = b) :
    (h.shrink other b).Ensures (¬linked) safe fun _ h' =>
      h'.Sound linked other (blocks \ {b}) live ∧ (linked → Relinked blocks h h') := by
  have self : page b = b := floor_self (whole ▸ sound.tiled.aligned b hb)
  have chunk : b ∈ h.chunks := by
    have inside := sound.tiled.inside b hb
    rwa [← page, self] at inside
  have dvd := sound.prevs b chunk
  have gone (h' : Arena) (chunks : h'.chunks = h.chunks) (c : Nat) : c ∈ (h'.munmap b).chunks ↔ c ∈ h.chunks ∧ c ≠ b := by
    rw [munmap, chunks, List.mem_filter, decide_eq_true_iff]
  by_cases none : h.prev b = 0
  · have is : h.shrink other b = .ok () (h.munmap b) := if_neg (not_not.mpr none)
    rw [is]
    refine ⟨?_, fun _ => ⟨fun _ _ => rfl, fun _ _ => rfl⟩⟩
    refine sound.dropped hb whole free notFirst 0 (fun a ha => ⟨rfl, rfl, rfl⟩) (fun a ha => ?_) (gone h rfl) rfl
      (fun _ => rfl) fun is => absurd none (sound.ne_zero (precedes is).1)
    rw [if_neg (sound.ne_zero ha)]
    rfl
  · have is : h.shrink other b = (h.use other (h.prev b)).bind fun _ h' =>
        .ok () ((h'.put (h.prev b) { h'.header (h.prev b) with next := (h'.header b).next }).munmap b) := if_pos none
    have after (h' : Arena) (mem : h'.mem = h.mem) (chunks : h'.chunks = h.chunks) (first : h'.firstBlock = h.firstBlock)
        (strays : linked → h'.strays = h.strays) :
        ((h'.put (h.prev b) { h'.header (h.prev b) with next := (h'.header b).next }).munmap b).Sound linked other
          (blocks \ {b}) live := by
      have headers (a : Nat) : h'.header a = h.header a := by rw [header, header, mem]
      have field {β : Type} (f : Header → β) (a : Nat) (ha : a ∈ blocks)
          (kept : f { h'.header (h.prev b) with next := (h'.header b).next } = f (h'.header (h.prev b))) :
          f ((h'.put (h.prev b) { h'.header (h.prev b) with next := (h'.header b).next }).header a) = f (h.header a) := by
        rw [field_put _ f _ (sound.dvd ha) dvd kept, headers]
      refine sound.dropped hb whole free notFirst (h.prev b) (fun a ha => ⟨?_, ?_, ?_⟩) (fun a ha => ?_) (gone _ chunks)
        first strays precedes
      · exact field (fun x => x.k.toNat) a ha rfl
      · exact field (fun x => x.prev.toNat) a ha rfl
      · exact field (fun x => x.available != 0) a ha rfl
      · split_ifs with here
        · subst here
          exact (congrArg (fun x : Header => x.next.toNat) (header_put ..)).trans (header_next (headers b))
        · exact (header_next (header_put_of_ne _ _ (sound.dvd ha) dvd here)).trans (header_next (headers a))
    rw [is]
    by_cases listed : linked
    · rw [sound.use (precedes listed).1]
      refine ⟨after h rfl rfl rfl fun _ => rfl, fun _ => ?_⟩
      have put : Relinked blocks h (h.put (h.prev b) { h.header (h.prev b) with next := (h.header b).next }) :=
        .put h (precedes listed).1 dvd ..
      exact ⟨put.headers, put.marks⟩
    · rcases use_cases other h (h.prev b) with used | used | used <;> rw [used]
      · exact ⟨after h rfl rfl rfl fun _ => rfl, fun is => absurd is listed⟩
      · exact ⟨after _ rfl rfl rfl fun is => absurd is listed, fun is => absurd is listed⟩
      · exact listed

end Sound

end Sound

end Arena

end Anthill
