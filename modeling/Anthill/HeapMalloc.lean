import Anthill.HeapBlocks

set_option autoImplicit false

namespace Anthill

open Buddy LinkedList

variable (linked : Prop) (other : Nat → Bool)

namespace Arena

/-- What mmap is taken to do: each answer is a chunk that is not in use. -/
def Fresh (h : Arena) (replies : List (Option Nat)) : Prop :=
  replies.Nodup ∧ ∀ reply, reply ∈ replies → ∃ c, reply = some c ∧ Chunk other c ∧ c ∉ h.chunks

theorem Fresh.nil (h : Arena) : h.Fresh other [] := ⟨List.nodup_nil, fun _ member => absurd member List.not_mem_nil⟩

theorem Fresh.one {h : Arena} {c : Nat} (chunk : Chunk other c) (new : c ∉ h.chunks) : h.Fresh other [some c] :=
  ⟨List.pairwise_singleton _ _, fun _ member => ⟨c, List.mem_singleton.mp member, chunk, new⟩⟩

-- A process that keeps its list in order has used no header outside of its chunks.
def Clean (h : Arena) : Prop := linked → h.strays = []

/-- What a call ensures, with or without the list in order. -/
abbrev Keeps {α : Type} (result : HeapResult α) (Q : α → Arena → Prop) : Prop :=
  result.Ensures (¬linked) (Clean linked) Q

section Sound

variable {linked other} {h : Arena} {blocks : Set Nat} {live : List (Nat × Nat)}

theorem Sound.clean (sound : h.Sound linked other blocks live) : Clean linked h := fun is => (sound.listed is).2.2

/-- An access at a place that is a block where the list is in order. -/
theorem Sound.use_any {safe : Arena → Prop} (sound : h.Sound linked other blocks live) (a : Nat)
    (good : linked → a ∈ blocks) : (h.use other a).Ensures (¬linked) safe fun _ h' =>
      h'.Sound linked other blocks live ∧ ∃ s, h' = { h with strays := s } := by
  by_cases listed : linked
  · rw [sound.use (good listed)]
    exact ⟨sound, h.strays, rfl⟩
  · have stray (s : List Nat) : ({ h with strays := s } : Arena).Sound linked other blocks live :=
      sound.relive (fun _ _ => rfl) (fun _ _ => rfl) (fun _ _ => rfl) rfl rfl (fun is => absurd is listed)
        sound.pointers sound.once
    rcases use_cases other h a with used | used | used <;> rw [used]
    · exact ⟨stray _, _, rfl⟩
    · exact ⟨stray _, _, rfl⟩
    · exact listed

/-- A block is taken or given back. -/
theorem Sound.mark (sound : h.Sound linked other blocks live) {b : Nat} (hb : b ∈ blocks) (v : BitVec 8)
    {live' : List (Nat × Nat)} (once : (live'.map Prod.fst).Nodup)
    (pointers : ∀ x, x ∈ live' → x ∈ live ∧ x.1 ≠ b + blockSize ∨
      x.1 = b + blockSize ∧ v = 0 ∧ blockSize + x.2 ≤ 2 ^ h.order b) :
    (h.put b { h.header b with available := v }).Sound linked other blocks live' := by
  have dvd := sound.dvd hb
  refine sound.relive (fun a ha => ?_) (fun a ha => ?_) (fun a ha => ?_) rfl rfl (fun _ => rfl) (fun x hx => ?_) once
  · exact field_put _ (fun x => x.k.toNat) _ (sound.dvd ha) dvd rfl
  · exact field_put _ (fun x => x.next.toNat) _ (sound.dvd ha) dvd rfl
  · exact field_put _ (fun x => x.prev.toNat) _ (sound.dvd ha) dvd rfl
  · rcases pointers x hx with ⟨member, away⟩ | ⟨is, rfl, fits⟩
    · obtain ⟨a, ha, is, used, fits⟩ := sound.pointers x member
      have ne : a ≠ b := by
        rintro rfl
        exact away is
      exact ⟨a, ha, is, (header_available (header_put_of_ne _ _ (sound.dvd ha) dvd ne)).trans used, fits⟩
    · refine ⟨b, hb, is, ?_, fits⟩
      rw [available, header_put]
      rfl

-- A free block is none that a pointer is to.
theorem Sound.pointer_away (sound : h.Sound linked other blocks live) {b : Nat} (free : h.available b = true)
    (x : Nat × Nat) (hx : x ∈ live) : x.1 ≠ b + blockSize := by
  obtain ⟨a, -, is, used, -⟩ := sound.pointers x hx
  intro same
  obtain rfl : a = b := Nat.add_right_cancel (is.symm.trans same)
  rw [free] at used
  cases used

/-- A block that is taken becomes a pointer. -/
theorem Sound.give (sound : h.Sound linked other blocks live) {b size : Nat} (hb : b ∈ blocks)
    (used : h.available b = false) (fits : size + blockSize ≤ 2 ^ h.order b)
    (away : ∀ x, x ∈ live → x.1 ≠ b + blockSize) : h.Sound linked other blocks ((b + blockSize, size) :: live) := by
  refine sound.relive (fun _ _ => rfl) (fun _ _ => rfl) (fun _ _ => rfl) rfl rfl (fun _ => rfl) ?_ ?_
  · intro x hx
    rcases List.mem_cons.mp hx with rfl | hx
    · exact ⟨b, hb, rfl, used, by rwa [Nat.add_comm]⟩
    · exact sound.pointers x hx
  · refine List.nodup_cons.mpr ⟨fun again => ?_, sound.once⟩
    obtain ⟨x, hx, same⟩ := List.mem_map.mp again
    exact away x hx same

-- Where block_find goes from a block.
def Ahead (linked : Prop) (other : Nat → Bool) (blocks : Set Nat) (current : Nat) : Prop :=
  current = 0 ∨ current ∈ blocks ∨ ¬linked ∧ mallocBlockSize ∣ current ∧ other current = false

theorem Sound.ahead (sound : h.Sound linked other blocks live) {b : Nat} (hb : b ∈ blocks) :
    Ahead linked other blocks (h.next b) := by
  by_cases is : linked
  · rcases (sound.listed is).1.next_mem hb with none | member
    · exact .inl none
    · exact .inr (.inl member)
  · rcases sound.links b hb with ⟨onward, within⟩ | ⟨aligned, none | apart⟩
    · exact .inr (.inl (onward ▸ sound.tiled.right_mem hb within))
    · exact .inl none
    · exact .inr (.inr ⟨is, aligned, apart⟩)

theorem Sound.ahead_first (sound : h.Sound linked other blocks live) : Ahead linked other blocks h.firstBlock := by
  rcases sound.first with ⟨none, -⟩ | member
  · exact .inl none
  · exact .inr (.inl (sound.base_mem member))

-- Where block_find has come from.
def Behind (linked : Prop) (blocks : Set Nat) (h : Arena) (current last : Nat) : Prop :=
  last = 0 ∧ current = h.firstBlock ∨ last ∈ blocks ∧ (linked → h.next last = current)

/-- What block_find returns. -/
def Found (linked : Prop) (other : Nat → Bool) (live : List (Nat × Nat)) (order b : Nat) (h : Arena) : Prop :=
  ∃ blocks, h.Sound linked other blocks live ∧ (b ≠ 0 → b ∈ blocks ∧ h.order b = order ∧ h.available b = false ∧
    ∀ x, x ∈ live → x.1 ≠ b + blockSize)

-- An address that is no block is of no chunk.
theorem Sound.use_away (sound : h.Sound linked other blocks live) {a : Nat} (aligned : mallocBlockSize ∣ a)
    (apart : other a = false) (away : a ∉ blocks) : h.use other a = .fault := by
  have self : page a = a := floor_self aligned
  have missing : page a ∉ h.chunks := fun member => away (sound.base_mem (self ▸ member))
  have unmapped : h.mapped other a = false := by
    rw [mapped, decide_eq_false missing, self, apart]
    rfl
  rw [Arena.use, if_neg fun both => missing both.1, unmapped, Bool.false_and, if_neg Bool.false_ne_true]

theorem Sound.blockFind {j : Nat} (large : 5 ≤ j) (fuel : Nat) (replies : List (Option Nat)) (current last : Nat)
    (sound : h.Sound linked other blocks live) (fresh : h.Fresh other replies) (ahead : Ahead linked other blocks current)
    (behind : Behind linked blocks h current last) :
    Keeps linked (blockFind other j fuel replies current last h) (Found linked other live j) := by
  induction fuel generalizing replies current last h blocks with
  | zero => exact sound.clean
  | succ fuel ih =>
    unfold Arena.blockFind
    split
    next some =>
      by_cases hb : current ∈ blocks
      · rw [sound.use hb]
        simp only [HeapResult.bind]
        split_ifs with skip larger
        · exact ih replies (h.next current) current sound fresh (sound.ahead hb) (.inr ⟨hb, fun _ => rfl⟩)
        · have free : h.available current = true := by simpa using (not_or.mp skip).1
          obtain ⟨i, was⟩ : ∃ i, h.order current = i + 1 := ⟨h.order current - 1, by omega⟩
          obtain ⟨h', is, sound', chunks, first, next⟩ := sound.split hb free was (by omega)
          rw [is]
          refine ih replies current last sound' ⟨fresh.1, chunks ▸ fresh.2⟩ (.inr (.inl (.inr hb))) ?_
          rcases behind with ⟨none, start⟩ | ⟨member, link⟩
          · exact .inl ⟨none, start.trans first.symm⟩
          · refine .inr ⟨.inr member, fun is => ?_⟩
            rw [next last member fun same => ?_, link is]
            -- A block of a list that ends is not behind itself.
            have loop := (sound.listed is).1.acyclic hb (l := [current]) (Path.cons.mpr ⟨rfl, some, same ▸ link is⟩)
            cases loop
        · have free : h.available current = true := by simpa using (not_or.mp skip).1
          have exact' : h.order current = j := by
            have least := (not_or.mp skip).2
            omega
          have away := sound.pointer_away free
          refine ⟨blocks, sound.mark hb 0 sound.once fun x hx => .inl ⟨hx, away x hx⟩, fun _ => ⟨hb, ?_, ?_, away⟩⟩
          · rw [← exact', order, header_put, order]
          · rw [available, header_put]
            rfl
      · rcases ahead with none | member | ⟨unlisted, aligned, apart⟩
        · exact absurd none some
        · exact absurd member hb
        · rw [sound.use_away aligned apart hb]
          exact unlisted
    next none =>
      obtain rfl : current = 0 := not_not.mp none
      cases replies with
      | nil => exact sound.clean
      | cons reply replies =>
        obtain ⟨c, rfl, chunk, new⟩ := fresh.2 _ (List.mem_cons_self ..)
        have place : last = 0 ∧ h.firstBlock = 0 ∨ last ∈ blocks ∧ (linked → h.next last = 0) :=
          behind.imp_left fun start => ⟨start.1, start.2.symm⟩
        obtain ⟨h', is, sound', chunks, -⟩ := sound.expand chunk new place
        simp only [is, HeapResult.bind, if_true]
        refine ih replies h'.firstBlock 0 sound' ⟨(List.nodup_cons.mp fresh.1).2, fun reply member => ?_⟩
          sound'.ahead_first (.inl ⟨rfl, rfl⟩)
        obtain ⟨d, rfl, chunk', new'⟩ := fresh.2 reply (List.mem_cons_of_mem _ member)
        refine ⟨d, rfl, chunk', fun again => ?_⟩
        rw [chunks] at again
        rcases List.mem_cons.mp again with rfl | again
        · exact (List.nodup_cons.mp fresh.1).1 member
        · exact new' again

theorem toNat_actualSize {size : BitVec 64} (fits : size.toNat + blockSize < 2 ^ 64) :
    (size + BitVec.ofNat 64 blockSize).toNat = size.toNat + blockSize := by
  rw [BitVec.toNat_add, BitVec.toNat_ofNat, Nat.mod_eq_of_lt (by decide : blockSize < 2 ^ 64), Nat.mod_eq_of_lt fits]

-- The order that malloc asks block_find for has room for a header.
theorem sizeOrder_large {size : BitVec 64} (some : size ≠ 0) : 5 ≤ (size.toNat + blockSize).size := by
  have nonzero : size.toNat ≠ 0 := fun none => some (BitVec.eq_of_toNat_eq none)
  refine Nat.lt_size.mpr ?_
  rw [blockSize]
  omega

/-- malloc adds a pointer to a block that holds the size asked for. -/
theorem Sound.malloc (sound : h.Sound linked other blocks live) (fuel : Nat) (replies : List (Option Nat))
    (fresh : h.Fresh other replies) (size : BitVec 64) (fits : size.toNat + blockSize < 2 ^ 64) :
    Keeps linked (h.malloc other fuel replies size) fun p h' => ∃ blocks', h'.Sound linked other blocks'
      (if p = 0 then live else (p, size.toNat) :: live) := by
  simp only [Arena.malloc]
  split_ifs with empty huge
  · exact ⟨blocks, sound⟩
  · exact ⟨blocks, sound⟩
  · rw [toNat_actualSize fits]
    have large := sizeOrder_large empty
    have enough := Nat.lt_size_self (size.toNat + blockSize)
    refine (sound.blockFind large fuel replies h.firstBlock 0 fresh sound.ahead_first (.inl ⟨rfl, rfl⟩)).bind ?_
    rintro b h' ⟨blocks', sound', found⟩
    split_ifs with none
    · exact ⟨blocks', sound'⟩
    · obtain ⟨hb, order, used, away⟩ := found none
      refine ⟨blocks', ?_⟩
      rw [if_neg (by rw [blockSize]; omega)]
      refine sound'.give hb used ?_ away
      rw [order]
      exact Nat.le_of_lt enough

end Sound

end Arena

end Anthill
