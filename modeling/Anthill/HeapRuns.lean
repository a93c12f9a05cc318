import Anthill.HeapFree
import Anthill.Run

set_option autoImplicit false

namespace Anthill

open Buddy LinkedList
open Bytes (Store)

variable {linked : Prop} (other : Nat → Bool)

/-- A heap, and the pointers in use with the sizes asked for. -/
abbrev HeapUse := Arena × List (Nat × Nat)

namespace Arena

-- What a process may store to: the memory that it has asked for, and what is outside of the chunks.
def Loose (h : Arena) (live : List (Nat × Nat)) (a : Nat) : Prop :=
  (∃ x, x ∈ live ∧ x.1 ≤ a ∧ a < x.1 + x.2) ∨ page a ∉ h.chunks

section Foreign

variable {other} {h : Arena} {blocks : Set Nat} {live : List (Nat × Nat)}

/-- Stores of the process leave the blocks. -/
theorem Sound.foreign (sound : h.Sound linked other blocks live) (mem : Store)
    (loose : ∀ a, mem a ≠ h.mem a → h.Loose live a) : ({ h with mem := mem } : Arena).Sound linked other blocks live := by
  have same (b : Nat) (hb : b ∈ blocks) : ({ h with mem := mem } : Arena).header b = h.header b := by
    refine h.header_congr fun a low high => ?_
    by_contra changed
    have whole := sound.tiled.extent hb
    have size := Nat.pow_le_pow_right (by decide : 0 < 2) (sound.tiled.bounds b hb).1
    have base := floor_le mallocMaxOrder b
    rw [blockSize] at high
    rcases loose a changed with ⟨x, hx, least, most⟩ | outside
    · obtain ⟨b', hb', is, -, fits⟩ := sound.pointers x hx
      rw [blockSize] at is fits
      by_cases here : b = b'
      · omega
      · rcases sound.tiled.disjoint hb hb' here with before | after <;> omega
    · refine outside ?_
      have inside : page a = page b := (floor_eq_iff (dvd_floor mallocMaxOrder b)).mpr (by omega)
      rw [inside]
      exact sound.tiled.inside b hb
  refine sound.relive (fun b hb => header_order (same b hb)) (fun b hb => header_next (same b hb))
    (fun b hb => header_prev (same b hb)) rfl rfl (fun _ => rfl) (fun x hx => ?_) sound.once
  obtain ⟨b, hb, is, used, fits⟩ := sound.pointers x hx
  exact ⟨b, hb, is, (header_available (same b hb)).trans used, fits⟩

theorem Sound.seekBlock (sound : h.Sound linked other blocks live) (block fuel current : Nat)
    (ahead : Ahead linked other blocks current) :
    Keeps linked (seekBlock other block fuel current h) fun b h' => h' = h ∧ Ahead linked other blocks b := by
  induction fuel generalizing current with
  | zero => exact sound.clean
  | succ fuel ih =>
    rw [Arena.seekBlock]
    split_ifs with found
    · exact ⟨rfl, ahead⟩
    · by_cases hb : current ∈ blocks
      · rw [sound.use hb]
        exact ih (h.next current) (sound.ahead hb)
      · rcases ahead with none | member | ⟨unlisted, aligned, apart⟩
        · exact absurd (.inl none) found
        · exact absurd member hb
        · rw [sound.use_away aligned apart hb]
          exact unlisted

theorem Sound.blockGetSize (sound : h.Sound linked other blocks live) (fuel ptr : Nat) :
    Keeps linked (h.blockGetSize other fuel ptr) fun _ h' => h' = h := by
  refine (sound.seekBlock (ptr - blockSize) fuel h.firstBlock sound.ahead_first).bind ?_
  rintro b _ ⟨rfl, ahead⟩
  split_ifs with none
  · rfl
  · by_cases hb : b ∈ blocks
    · rw [sound.use hb]
      rfl
    · rcases ahead with none' | member | ⟨unlisted, aligned, apart⟩
      · exact absurd none' none
      · exact absurd member hb
      · rw [sound.use_away aligned apart hb]
        exact unlisted

theorem Sound.memcpy (sound : h.Sound linked other blocks live) (dst src n size : Nat) (member : (dst, size) ∈ live)
    (le : n ≤ size) : Keeps linked (h.memcpy other dst src n) fun _ h' => h'.Sound linked other blocks live := by
  rw [Arena.memcpy]
  split_ifs
  · refine sound.foreign _ fun a changed => .inl ⟨(dst, size), member, ?_⟩
    by_contra outside
    refine changed (Store.write_outside _ _ _ _ ?_)
    rw [Store.length_bytes]
    dsimp only at outside
    omega
  · exact sound.clean

theorem Sound.reallocCopy (sound : h.Sound linked other blocks live) (fuel : Nat) (replies : List (Option Nat))
    (fresh : h.Fresh other replies) (ptr : Nat) (size : BitVec 64) (fits : size.toNat + blockSize < 2 ^ 64) :
    Keeps linked (h.reallocCopy other fuel replies ptr size) fun p h' => ∃ blocks', h'.Sound linked other blocks'
      (if p = 0 then live else (p, size.toNat) :: live) := by
  rw [Arena.reallocCopy]
  by_cases empty : size = 0
  · rw [if_pos empty]
    exact ⟨blocks, sound⟩
  · rw [if_neg empty]
    have looked : Keeps linked (if ptr = 0 then .ok 0 h else h.blockGetSize other fuel ptr) fun _ h' => h' = h := by
      split_ifs
      · rfl
      · exact sound.blockGetSize fuel ptr
    refine looked.bind ?_
    rintro n _ rfl
    by_cases unknown : ptr ≠ 0 ∧ n = 0
    · rw [if_pos unknown]
      exact ⟨blocks, sound⟩
    · rw [if_neg unknown]
      refine (sound.malloc fuel replies fresh size fits).bind ?_
      rintro p h' ⟨blocks', sound'⟩
      by_cases none : p = 0
      · rw [if_pos none] at sound' ⊢
        exact ⟨blocks', sound'⟩
      · rw [if_neg none] at sound' ⊢
        refine (sound'.memcpy p ptr (min n size.toNat) size.toNat (List.mem_cons_self ..) (Nat.min_le_right ..)).bind ?_
        intro _ h'' sound''
        refine ⟨blocks', ?_⟩
        rw [if_neg none]
        exact sound''

end Foreign

end Arena

/-- Calls of a process on pointers in use, and stores to memory that it has asked for or that is not the heap's. -/
def HeapCall.Legal (s : HeapUse) : HeapCall → Prop
  | .malloc _ => True
  | .free ptr => ptr ∈ s.2.map Prod.fst
  | .realloc ptr _ => ptr = 0 ∨ ptr ∈ s.2.map Prod.fst
  | .store a _ => s.1.Loose s.2 a

-- The pointers in use after a call that returns `r`.
def HeapCall.live (r : Nat) (live : List (Nat × Nat)) : HeapCall → List (Nat × Nat)
  | .malloc size => if r = 0 then live else (r, size.toNat) :: live
  | .free ptr => live.filter fun x => x.1 ≠ ptr
  | .realloc ptr size => if r = 0 then live else (r, size.toNat) :: live.filter fun x => x.1 ≠ ptr
  | .store _ _ => live

/-- The calls whose sizes do not overflow and whose calls of free are all as `freeing` says. -/
def HeapCall.Fits (freeing : Arena → Nat → Prop) (s : HeapUse) : HeapCall → Prop
  | .malloc size => size.toNat + blockSize < 2 ^ 64
  | .free ptr => freeing s.1 (ptr - blockSize)
  | .realloc ptr size => size.toNat + blockSize < 2 ^ 64 ∧ ∀ fuel replies r h, s.1.Fresh other replies →
      s.1.reallocCopy other fuel replies ptr size = .ok r h → r ≠ 0 → ptr ≠ 0 → freeing h (ptr - blockSize)
  | .store _ _ => True

def HeapCall.Step (s : HeapUse) (call : HeapCall) (s' : HeapUse) : Prop :=
  ∃ fuel replies r, call.Legal s ∧ s.1.Fresh other replies ∧ call.run other fuel replies s.1 = .ok r s'.1 ∧
    s'.2 = call.live r s.2

def noHeap (mem : Store) : HeapUse := (⟨mem, 0, [], []⟩, [])

/-- Each pointer has the size asked for in one chunk, and no two share a byte, headers included. -/
structure Apart (s : HeapUse) : Prop where
  inside : ∀ x, x ∈ s.2 → ∃ c, c ∈ s.1.chunks ∧ c + blockSize ≤ x.1 ∧ x.1 + x.2 ≤ c + mallocBlockSize
  apart : s.2.Pairwise fun x y => x.1 + x.2 + blockSize ≤ y.1 ∨ y.1 + y.2 + blockSize ≤ x.1

/-- The list from first_block ends, has every chunk, and no header outside of the chunks has been used or is used
by a call to come. -/
structure Confined (freeing : Arena → Nat → Prop) (s : HeapUse) : Prop where
  clean : s.1.strays = []
  list : ∃ l, Path s.1.next 0 s.1.firstBlock l ∧ ∀ c, c ∈ s.1.chunks → c ∈ l
  calls : ∀ call : HeapCall, call.Legal s → call.Fits other freeing s → ∀ fuel replies, s.1.Fresh other replies →
    (call.run other fuel replies s.1).Ensures False (fun h => h.strays = []) fun _ h => h.strays = []

theorem HeapCall.Fits.imp {freeing freeing' : Arena → Nat → Prop} {s : HeapUse} {call : HeapCall}
    (fits : call.Fits other freeing s) (weaker : ∀ h b, freeing h b → freeing' h b) : call.Fits other freeing' s := by
  cases call with
  | malloc size => exact fits
  | free ptr => exact weaker _ _ fits
  | realloc ptr size => exact ⟨fits.1, fun fuel replies r h fresh is some given =>
      weaker _ _ (fits.2 fuel replies r h fresh is some given)⟩
  | store a byte => trivial

section Sound

variable {other} {s : HeapUse} {blocks : Set Nat}

theorem noHeap_sound (mem : Store) : (noHeap mem).1.Sound linked other ∅ (noHeap mem).2 where
  tiled := by
    have none : {c | c ∈ (noHeap mem).1.chunks} = ∅ := Set.eq_empty_of_forall_notMem fun c => List.not_mem_nil
    rw [none]
    exact Tiled.empty
  chunk _ member := absurd member List.not_mem_nil
  links _ member := member.elim
  prevs _ member := absurd member List.not_mem_nil
  first := .inl ⟨rfl, rfl⟩
  pointers _ member := absurd member List.not_mem_nil
  once := List.nodup_nil
  listed _ := ⟨Listing.empty, fun _ member => member.elim, rfl⟩

theorem HeapResult.Ensures.self {α : Type} {faults : Prop} {safe : Arena → Prop} {Q : α → Arena → Prop}
    {result : HeapResult α} (holds : result.Ensures faults safe Q) :
    result.Ensures faults safe fun value h => Q value h ∧ result = .ok value h := by
  cases result with
  | ok value h => exact ⟨holds, rfl⟩
  | fault => exact holds
  | overread h => exact holds
  | unfinished h => exact holds

/-- What a call leaves. -/
theorem HeapCall.keeps (sound : s.1.Sound linked other blocks s.2) (call : HeapCall) (legal : call.Legal s)
    (fits : call.Fits other (fun h b => h.Matched b ∧ (linked → h.Tidy b)) s) (fuel : Nat)
    (replies : List (Option Nat)) (fresh : s.1.Fresh other replies) :
    Arena.Keeps linked (call.run other fuel replies s.1) fun r h' =>
      ∃ blocks', h'.Sound linked other blocks' (call.live r s.2) := by
  cases call with
  | malloc size => exact sound.malloc fuel replies fresh size fits
  | free ptr =>
    obtain ⟨x, member, rfl⟩ := List.mem_map.mp legal
    exact (sound.free fuel x member fits.1 fits.2).bind fun _ h' done => done
  | realloc ptr size =>
    rw [HeapCall.run, Arena.realloc]
    refine (sound.reallocCopy fuel replies fresh ptr size fits.1).self.bind ?_
    rintro r h' ⟨⟨blocks', sound'⟩, is⟩
    by_cases none : r = 0
    · rw [if_pos none] at sound' ⊢
      exact ⟨blocks', sound'⟩
    · rw [if_neg none] at sound' ⊢
      have others : Arena.Keeps linked (h'.free other fuel ptr) fun _ h'' => ∃ blocks'', h''.Sound linked other blocks''
          ((r, size.toNat) :: s.2.filter fun x => x.1 ≠ ptr) := by
        rcases legal with rfl | member
        · rw [Arena.free, if_pos rfl]
          refine ⟨blocks', ?_⟩
          have all : (s.2.filter fun x => x.1 ≠ 0) = s.2 := List.filter_eq_self.mpr fun x hx => by
            obtain ⟨b, -, at', -, -⟩ := sound.pointers x hx
            rw [decide_eq_true_iff, at', blockSize]
            omega
          rw [all]
          exact sound'
        · obtain ⟨x, hx, rfl⟩ := List.mem_map.mp member
          have new : r ≠ x.1 := by
            rintro rfl
            exact (List.nodup_cons.mp sound'.once).1 member
          have given : x.1 ≠ 0 := by
            obtain ⟨b, -, at', -, -⟩ := sound.pointers x hx
            rw [at', blockSize]
            omega
          have freed := fits.2 fuel replies r h' fresh is none given
          have done := sound'.free fuel x (List.mem_cons_of_mem _ hx) freed.1 freed.2
          have kept : ((r, size.toNat) :: s.2).filter (fun y => y.1 ≠ x.1) =
              (r, size.toNat) :: s.2.filter fun y => y.1 ≠ x.1 := List.filter_cons_of_pos (decide_eq_true new)
          rwa [kept] at done
      refine others.bind fun _ h'' done => ?_
      obtain ⟨blocks'', sound''⟩ := done
      refine ⟨blocks'', ?_⟩
      rw [HeapCall.live, if_neg none]
      exact sound''
  | store a byte =>
    refine ⟨blocks, sound.foreign _ fun a' changed => ?_⟩
    have here : a' = a := by
      by_contra away
      exact changed (if_neg away)
    rw [here]
    exact legal

theorem Arena.Sound.apart (sound : s.1.Sound linked other blocks s.2) : Apart s where
  inside x hx := by
    obtain ⟨b, hb, is, -, fits⟩ := sound.pointers x hx
    have low := floor_le mallocMaxOrder b
    have high := sound.tiled.extent hb
    refine ⟨Arena.page b, sound.tiled.inside b hb, ?_, ?_⟩
    · rw [is, Arena.page]
      omega
    · rw [is, Arena.page, mallocBlockSize]
      omega
  apart := by
    have nodup : s.2.Pairwise fun x y => x.1 ≠ y.1 := List.pairwise_map.mp sound.once
    refine nodup.imp_of_mem fun {x y} hx hy ne => ?_
    obtain ⟨a, ha, isA, -, fitsA⟩ := sound.pointers x hx
    obtain ⟨b, hb, isB, -, fitsB⟩ := sound.pointers y hy
    have other' : a ≠ b := by
      rintro rfl
      exact ne (isA.trans isB.symm)
    rcases sound.tiled.disjoint ha hb other' with before | after
    · left
      omega
    · right
      omega

end Sound

theorem HeapCall.step_keeps {freeing : Arena → Nat → Prop} {s s' : HeapUse} {call : HeapCall} {blocks : Set Nat}
    (weaker : ∀ h b, freeing h b → h.Matched b ∧ (linked → h.Tidy b)) (sound : s.1.Sound linked other blocks s.2)
    (fits : call.Fits other freeing s) (step : HeapCall.Step other s call s') :
    ∃ blocks', s'.1.Sound linked other blocks' s'.2 := by
  obtain ⟨fuel, replies, r, legal, fresh, is, live⟩ := step
  have kept := HeapCall.keeps sound call legal (fits.imp other weaker) fuel replies fresh
  rw [is] at kept
  rw [live]
  exact kept

-- A process that has but its heap, whose first chunk is mapped at `firstChunk`.
def noOther : Nat → Bool := fun _ => false

def firstChunk : Nat := 65536

theorem firstChunk_fresh (mem : Store) : (noHeap mem).1.Fresh noOther [some firstChunk] :=
  .one noOther ⟨by decide, by decide, by decide, rfl⟩ List.not_mem_nil

def HeapResult.faulted {α : Type} : HeapResult α → Bool
  | .fault => true
  | _ => false

theorem HeapResult.faulted_iff {α : Type} {result : HeapResult α} : result.faulted = true ↔ result = .fault := by
  cases result <;> simp [faulted]

def HeapUse.take (s : HeapUse) (call : HeapCall) (replies : List (Option Nat)) : Option HeapUse :=
  match call.run noOther 64 replies s.1 with
  | .ok r h => some (h, call.live r s.2)
  | _ => none

theorem HeapUse.take_step {s s' : HeapUse} {call : HeapCall} {replies : List (Option Nat)} (legal : call.Legal s)
    (fresh : s.1.Fresh noOther replies) (taken : s.take call replies = some s') : HeapCall.Step noOther s call s' := by
  unfold HeapUse.take at taken
  split at taken
  next r h is =>
    obtain rfl := Option.some.inj taken
    exact ⟨64, replies, r, legal, fresh, is, rfl⟩
  next => cases taken

-- Calls of malloc for which no memory comes from mmap, by their sizes, and calls of free, by their pointers.
def HeapUse.takeAll : HeapUse → List (BitVec 64 ⊕ Nat) → Option HeapUse
  | s, [] => some s
  | s, .inl size :: calls => (s.take (.malloc size) []).bind fun s => s.takeAll calls
  | s, .inr ptr :: calls =>
    if ptr ∈ s.2.map Prod.fst then (s.take (.free ptr) []).bind fun s => s.takeAll calls else none

theorem HeapUse.takeAll_run {s₀ s s' : HeapUse} (calls : List (BitVec 64 ⊕ Nat))
    (before : Run (HeapCall.Step noOther) (fun _ _ => True) s₀ s) (taken : s.takeAll calls = some s') :
    Run (HeapCall.Step noOther) (fun _ _ => True) s₀ s' := by
  induction calls generalizing s with
  | nil =>
    obtain rfl := Option.some.inj taken
    exact before
  | cons call calls ih =>
    have fresh (h : Arena) : h.Fresh noOther [] := .nil noOther h
    cases call with
    | inl size =>
      obtain ⟨s₁, first, rest⟩ := Option.bind_eq_some_iff.mp taken
      exact ih (.next _ _ (.malloc size) before trivial (HeapUse.take_step trivial (fresh _) first)) rest
    | inr ptr =>
      rw [HeapUse.takeAll] at taken
      split_ifs at taken with legal
      obtain ⟨s₁, first, rest⟩ := Option.bind_eq_some_iff.mp taken
      exact ih (.next _ _ (.free ptr) before trivial (HeapUse.take_step legal (fresh _) first)) rest

/-- The heap after a first call of malloc, and calls after it. -/
def HeapUse.started (size : BitVec 64) (calls : List (BitVec 64 ⊕ Nat)) : Option HeapUse :=
  ((noHeap fun _ => 0).take (.malloc size) [some firstChunk]).bind fun s => s.takeAll calls

theorem HeapUse.started_run {size : BitVec 64} {calls : List (BitVec 64 ⊕ Nat)} {s : HeapUse}
    (started : HeapUse.started size calls = some s) :
    Run (HeapCall.Step noOther) (fun _ _ => True) (noHeap fun _ => 0) s := by
  obtain ⟨s₁, first, rest⟩ := Option.bind_eq_some_iff.mp started
  exact HeapUse.takeAll_run calls
    (.next _ _ (.malloc size) .start trivial (HeapUse.take_step trivial (firstChunk_fresh _) first)) rest

theorem heap_apart (mem : Store) (s : HeapUse)
    (run : Run (HeapCall.Step other) (fun s call => call.Fits other Arena.Matched s) (noHeap mem) s) : Apart s := by
  have sound : ∃ blocks, s.1.Sound False other blocks s.2 :=
    run.invariant (fun s => ∃ blocks, s.1.Sound False other blocks s.2) ⟨∅, noHeap_sound mem⟩
      fun s call s' ⟨blocks, sound⟩ fits step =>
        HeapCall.step_keeps other (fun h b matched => ⟨matched, False.elim⟩) sound fits step
  obtain ⟨blocks, sound⟩ := sound
  exact sound.apart

/-- A first call of malloc. -/
theorem first_malloc : ∃ s, s.2 = [(firstChunk + blockSize, 8)] ∧ ∀ freeing,
    Run (HeapCall.Step noOther) (fun s call => call.Fits noOther freeing s) (noHeap fun _ => 0) s := by
  have live : ((noHeap fun _ => 0).take (.malloc 8) [some firstChunk]).map Prod.snd =
      some [(firstChunk + blockSize, 8)] := by decide +kernel
  obtain ⟨s, taken, is⟩ := Option.map_eq_some_iff.mp live
  refine ⟨s, is, fun freeing => .next _ _ (.malloc 8) .start ?_ (HeapUse.take_step trivial (firstChunk_fresh _) taken)⟩
  exact (by decide : (8 : BitVec 64).toNat + blockSize < 2 ^ 64)

theorem heap_apart_malloc : ∃ s, s.2 = [(firstChunk + blockSize, 8)] ∧ Apart s := by
  obtain ⟨s, live, run⟩ := first_malloc
  exact ⟨s, live, heap_apart noOther (fun _ => 0) s (run Arena.Matched)⟩

/-- A free block of 64 bytes merges with the free first half of its buddy. The next block that is taken has the
second half, which is in use. -/
theorem free_merges_used : ∃ s, Run (HeapCall.Step noOther) (fun _ _ => True) (noHeap fun _ => 0) s ∧ ¬ Apart s := by
  have live : (HeapUse.started 8 [.inl 1, .inl 1, .inl 40, .inr (firstChunk + 88), .inr (firstChunk + 24),
      .inl 100]).map Prod.snd = some [(firstChunk + 24, 100), (firstChunk + 152, 40), (firstChunk + 120, 1)] := by
    decide +kernel
  obtain ⟨s, started, is⟩ := Option.map_eq_some_iff.mp live
  refine ⟨s, HeapUse.started_run started, fun apart => ?_⟩
  have pairs := apart.apart
  rw [is] at pairs
  revert pairs
  decide

theorem heap_confined (mem : Store) (s : HeapUse) (run : Run (HeapCall.Step other)
    (fun s call => call.Fits other (fun h b => h.Matched b ∧ h.Tidy b) s) (noHeap mem) s) :
    Confined other (fun h b => h.Matched b ∧ h.Tidy b) s := by
  have sound : ∃ blocks, s.1.Sound True other blocks s.2 :=
    run.invariant (fun s => ∃ blocks, s.1.Sound True other blocks s.2) ⟨∅, noHeap_sound mem⟩
      fun s call s' ⟨blocks, sound⟩ fits step =>
        HeapCall.step_keeps other (fun h b given => ⟨given.1, fun _ => given.2⟩) sound fits step
  obtain ⟨blocks, sound⟩ := sound
  obtain ⟨⟨l, path, all⟩, -, clean⟩ := sound.listed trivial
  refine ⟨clean, ⟨l, path, fun c hc => (all c).mpr (sound.base_mem hc)⟩, fun call legal fits fuel replies fresh => ?_⟩
  have kept := HeapCall.keeps sound call legal (fits.imp other fun h b given => ⟨given.1, fun _ => given.2⟩) fuel replies
    fresh
  generalize call.run other fuel replies s.1 = result at kept ⊢
  cases result with
  | ok r h =>
    obtain ⟨blocks', sound'⟩ := kept
    exact sound'.clean trivial
  | fault => exact kept trivial
  | overread h => exact kept trivial
  | unfinished h => exact kept trivial

theorem heap_confined_malloc : ∃ s, s.2 = [(firstChunk + blockSize, 8)] ∧
    Confined noOther (fun h b => h.Matched b ∧ h.Tidy b) s := by
  obtain ⟨s, live, run⟩ := first_malloc
  exact ⟨s, live, heap_confined noOther (fun _ => 0) s (run fun h b => h.Matched b ∧ h.Tidy b)⟩

/-- A chunk that is whole again has its buddy in the chunk next to it, which is not mapped. -/
theorem free_reads_past_chunk : ∃ s ptr, Run (HeapCall.Step noOther) (fun _ _ => True) (noHeap fun _ => 0) s ∧
    ptr ∈ s.2.map Prod.fst ∧ s.1.free noOther 64 ptr = .fault := by
  have seen : (HeapUse.started 4000 []).map (fun s => (s.2, (s.1.free noOther 64 (firstChunk + 24)).faulted)) =
      some ([(firstChunk + 24, 4000)], true) := by decide +kernel
  obtain ⟨s, started, is⟩ := Option.map_eq_some_iff.mp seen
  obtain ⟨live, faulted⟩ := Prod.mk.inj is
  refine ⟨s, firstChunk + 24, HeapUse.started_run started, ?_, HeapResult.faulted_iff.mp faulted⟩
  rw [live]
  exact List.mem_cons_self ..

end Anthill
