import Anthill.HeapMalloc

set_option autoImplicit false

namespace Anthill

open Buddy LinkedList

variable {linked : Prop} {other : Nat → Bool}

namespace Arena

variable {h : Arena} {blocks : Set Nat} {live : List (Nat × Nat)}

-- The block that the merge of `b` meets at order `j`, and that it takes those of the orders below `j`.
def buddyAt (b j : Nat) : Nat := Buddy.floor j b ^^^ 2 ^ j

def Joins (h : Arena) (b j : Nat) : Prop := ∀ i, h.order b ≤ i → i < j → h.available (buddyAt b i) = true

/-- The merge of a block takes no buddy of another order. -/
def Matched (h : Arena) (b : Nat) : Prop :=
  ∀ j, h.order b ≤ j → j < mallocMaxOrder → h.Joins b (j + 1) → h.order (buddyAt b j) = j

/-- If the merge of a block comes to its whole chunk, the other half of the next size is a chunk or would be at
address 0, and the block before the chunk in the list, if there is one, is the one that its prev names. -/
def Tidy (h : Arena) (b : Nat) : Prop :=
  h.Joins b mallocMaxOrder →
    (page b ^^^ mallocBlockSize = 0 ∨ page b ^^^ mallocBlockSize ∈ h.chunks) ∧
    (page b = h.firstBlock ∨ ∃ l₁ l₂, Path h.next 0 h.firstBlock (l₁ ++ h.prev (page b) :: page b :: l₂))

-- What is needed of a chunk before it goes.
def Leaves (h : Arena) (blocks : Set Nat) (c : Nat) : Prop :=
  (c ^^^ mallocBlockSize = 0 ∨ c ^^^ mallocBlockSize ∈ h.chunks) ∧
    (c ≠ h.firstBlock → h.prev c ∈ blocks ∧ h.next (h.prev c) = c)

theorem Sound.buddyAt_mem (sound : h.Sound linked other blocks live) {b i : Nat} (hb : b ∈ blocks) (low : h.order b ≤ i)
    (high : i < mallocMaxOrder) : buddyAt b i ∈ blocks := by
  have aligned : 2 ^ i ∣ buddyAt b i := dvd_buddy (dvd_floor i b)
  have up (j : Nat) (lt : i < j) : floor j (buddyAt b i) = floor j b := by
    rw [show buddyAt b i = buddy i (floor i b) from rfl, floor_buddy (dvd_floor i b) lt,
      floor_floor (Nat.le_of_lt lt)]
  obtain ⟨c, hc, covers⟩ := sound.tiled.cover (buddyAt b i) (by
    rw [up mallocMaxOrder high]
    exact sound.tiled.inside b hb)
  rcases Nat.lt_or_ge i (h.order c) with larger | le
  · -- A block that covers both halves would be the block itself.
    rw [up (h.order c) larger] at covers
    rw [← sound.tiled.apart b c hb hc covers] at larger
    omega
  · rw [floor_self (dvd_of_le le aligned)] at covers
    exact covers ▸ hc

theorem dvd_buddyAt (b j : Nat) : 2 ^ j ∣ buddyAt b j := dvd_buddy (dvd_floor j b)

theorem buddyAt_ne {a b j : Nat} (same : floor j a = floor j b) : buddyAt b j ≠ a := by
  rintro is
  have self := floor_self (dvd_buddyAt b j)
  rw [is, same] at self
  have positive := Nat.two_pow_pos j
  rcases buddy_cases (dvd_floor j b) with ⟨-, up⟩ | ⟨-, up⟩ <;>
    rw [show buddy j (floor j b) = buddyAt b j from rfl, is] at up <;> omega

/-- A merge that goes on as the merge of another block, of a smaller order, has begun. -/
theorem Joins.back {h h' : Arena} {b b' m : Nat} (joins : h'.Joins b' m)
    (began : ∀ i, h.order b ≤ i → i < h'.order b' → h.available (buddyAt b i) = true)
    (same : ∀ i, h'.order b' ≤ i → i < m → buddyAt b' i = buddyAt b i ∧
      h'.available (buddyAt b i) = h.available (buddyAt b i)) : h.Joins b m := by
  intro i low high
  rcases Nat.lt_or_ge i (h'.order b') with before | after
  · exact began i low before
  · obtain ⟨at', available⟩ := same i after high
    rw [← available, ← at']
    exact joins i after high

theorem Matched.onward {h h' : Arena} {b b' : Nat} (matched : h.Matched b) (le : h.order b ≤ h'.order b')
    (began : ∀ i, h.order b ≤ i → i < h'.order b' → h.available (buddyAt b i) = true)
    (same : ∀ i, h'.order b' ≤ i → i < mallocMaxOrder → buddyAt b' i = buddyAt b i ∧
      h'.header (buddyAt b i) = h.header (buddyAt b i)) : h'.Matched b' := by
  intro j low high joins
  obtain ⟨at', header⟩ := same j low high
  rw [at', header_order header]
  refine matched j (Nat.le_trans le low) high (joins.back began fun i least most => ?_)
  obtain ⟨at', header⟩ := same i least (Nat.lt_of_lt_of_le most high)
  exact ⟨at', header_available header⟩

/-- A chunk's blocks follow one another from its base. -/
theorem Sound.reach (sound : h.Sound linked other blocks live) (is : linked) (a : Nat) (ha : a ∈ blocks) :
    ∃ l, Path h.next a (page a) l := by
  induction a using Nat.strong_induction_on with
  | _ a ih =>
    by_cases base : a = page a
    · exact ⟨[], base.symm⟩
    · have low := floor_le mallocMaxOrder a
      have high := lt_floor mallocMaxOrder a
      have inside : page (a - 1) = page a := by
        refine (floor_eq_iff (dvd_floor mallocMaxOrder a)).mpr ?_
        rw [page] at base
        omega
      obtain ⟨b, hb, covers⟩ := sound.tiled.cover (a - 1) (by
        rw [← page, inside]
        exact sound.tiled.inside a ha)
      have around := (floor_eq_iff (sound.tiled.aligned b hb)).mp covers
      have positive := Nat.two_pow_pos (h.order a)
      have left : b + 2 ^ h.order b = a := by
        rw [page] at base
        rcases sound.tiled.disjoint ha hb (by omega) with before | after <;> omega
      have samePage : page b = page a := by
        rw [← inside, ← covers, page, page, floor_floor (sound.tiled.bounds b hb).2]
      obtain ⟨l, path⟩ := ih b (by
        rw [page] at base
        omega) hb
      refine ⟨l ++ [b], Path.append.mpr ⟨b, samePage ▸ path, Path.cons.mpr ⟨rfl, sound.ne_zero hb, ?_⟩⟩⟩
      have on := (sound.listed is).2.1 b hb (by rw [left, samePage])
      rw [on, left]
      exact Path.nil.mpr rfl

theorem Sound.not_back (sound : h.Sound linked other blocks live) (is : linked) {a : Nat} (ha : a ∈ blocks) :
    h.next a ≠ page a := by
  intro back
  obtain ⟨l, path⟩ := sound.reach is a ha
  have base := sound.base_mem (sound.tiled.inside a ha)
  have round : Path h.next (page a) a [a] := Path.cons.mpr ⟨rfl, sound.ne_zero ha, Path.nil.mpr back⟩
  have loop := (sound.listed is).1.acyclic base (Path.append.mpr ⟨a, path, round⟩)
  simp at loop

/-- A merge of the two halves of a block leaves what the merge needs. -/
theorem Sound.merge_step (sound : h.Sound linked other blocks live) {b a u : Nat} (hb : b ∈ blocks) (ha : a ∈ blocks)
    (hu : u ∈ blocks) (above : u = a + 2 ^ h.order b) (left : h.order a = h.order b) (right : h.order u = h.order b)
    (half : floor (h.order b + 1) b = a) (room : h.order b < mallocMaxOrder) (freeLeft : h.available a = true)
    (freeRight : h.available u = true) (buddy : h.available (buddyAt b (h.order b)) = true) (matched : h.Matched b)
    (leaves : linked → h.Joins b mallocMaxOrder → h.Leaves blocks (page b)) :
    (h.join a u).Sound linked other (blocks \ {u}) live ∧ a ∈ blocks \ {u} ∧ (h.join a u).available a = true ∧
      (h.join a u).order a = h.order b + 1 ∧ (h.join a u).Matched a ∧
      (linked → (h.join a u).Joins a mallocMaxOrder → (h.join a u).Leaves (blocks \ {u}) (page a)) := by
  subst above
  have aligned : 2 ^ (h.order b + 1) ∣ a := half ▸ dvd_floor ..
  obtain ⟨sound', order, free⟩ := sound.join ha hu left right aligned room freeLeft freeRight
  have least := (sound.tiled.bounds b hb).1
  have up (j : Nat) (lt : h.order b < j) : floor j a = floor j b := by rw [← half, floor_floor lt]
  have began (i : Nat) (low : h.order b ≤ i) (high : i < (h.join a (a + 2 ^ h.order b)).order a) :
      h.available (buddyAt b i) = true := by
    rw [order] at high
    obtain rfl : i = h.order b := by omega
    exact buddy
  have same (i : Nat) (low : (h.join a (a + 2 ^ h.order b)).order a ≤ i) : buddyAt a i = buddyAt b i ∧
      (h.join a (a + 2 ^ h.order b)).header (buddyAt b i) = h.header (buddyAt b i) := by
    rw [order] at low
    refine ⟨by rw [buddyAt, up i low, buddyAt], ?_⟩
    exact header_join_of_ne _ (dvd_of_le (by omega : 5 ≤ i) (dvd_buddyAt b i)) (sound.dvd ha) (buddyAt_ne (up i low))
  have ne : a + 2 ^ h.order b ≠ a := by
    have positive := Nat.two_pow_pos (h.order b)
    omega
  refine ⟨sound', ⟨ha, ne.symm⟩, free, order, matched.onward (by omega) began fun i low _ => same i low, fun is joins => ?_⟩
  have whole := joins.back began fun i low _ => ⟨(same i low).1, header_available (same i low).2⟩
  obtain ⟨chunk, before⟩ := leaves is whole
  have samePage : page a = page b := up mallocMaxOrder room
  have upper : page (a + 2 ^ h.order b) = page a := floor_half aligned room
  rw [samePage]
  refine ⟨chunk, fun notFirst => ?_⟩
  obtain ⟨hp, link⟩ := before notFirst
  have prev : (h.join a (a + 2 ^ h.order b)).prev (page b) = h.prev (page b) := by
    by_cases here : page b = a
    · rw [here, Arena.prev, h.header_join (sound.dvd ha) (sound.dvd hu) ne, Arena.prev]
    · exact header_prev (h.header_join_of_ne (sound.dvd (sound.base_mem (sound.tiled.inside b hb))) (sound.dvd ha) here)
  have notUpper : h.prev (page b) ≠ a + 2 ^ h.order b := by
    intro is'
    rw [is'] at link
    exact sound.not_back is hu (by rw [link, upper, samePage])
  have notLower : h.prev (page b) ≠ a := by
    intro is'
    rw [is'] at link
    have onward := (sound.listed is).2.1 a ha (by rw [left, upper])
    have low := floor_le mallocMaxOrder a
    rw [← page, samePage, ← link, onward, left] at low
    have positive := Nat.two_pow_pos (h.order b)
    omega
  rw [prev]
  exact ⟨⟨hp, notUpper⟩, (header_next (h.header_join_of_ne (sound.dvd hp) (sound.dvd ha) notLower)).trans link⟩

/-- What the loop of block_coalesce has come to in a heap of the blocks `blocks`. -/
structure Merged (linked : Prop) (other : Nat → Bool) (live : List (Nat × Nat)) (blocks : Set Nat) (h : Arena) (b' : Nat)
    (h' : Arena) (blocks' : Set Nat) : Prop where
  sound : h'.Sound linked other blocks' live
  member : b' ∈ blocks'
  free : h'.available b' = true
  leaves : linked → h'.order b' = mallocMaxOrder → h'.Leaves blocks' b'
  fewer : blocks' ⊆ blocks
  relinked : Relinked blocks h h'

theorem Merged.after {h₁ h' : Arena} {blocks₁ blocks' : Set Nat} {b' : Nat}
    (merged : Merged linked other live blocks₁ h₁ b' h' blocks') (fewer : blocks₁ ⊆ blocks)
    (relinked : Relinked blocks h h₁) : Merged linked other live blocks h b' h' blocks' :=
  { merged with
    fewer := merged.fewer.trans fewer
    relinked := relinked.trans (merged.relinked.mono fewer) }

theorem Sound.join_relinked (sound : h.Sound linked other blocks live) {a : Nat} (ha : a ∈ blocks) (u : Nat) :
    Relinked blocks h (h.join a u) := by
  have grown : Relinked blocks h (h.put a { h.header a with k := (h.header a).k + 1 }) := .put h ha (sound.dvd ha) ..
  exact grown.trans (.put _ ha (sound.dvd ha) ..)

/-- What the loop of block_coalesce comes to, each round of which has the block one order higher. -/
theorem Sound.merge (sound : h.Sound linked other blocks live) (fuel : Nat) {b : Nat} (hb : b ∈ blocks)
    (free : h.available b = true) (matched : h.Matched b)
    (leaves : linked → h.Joins b mallocMaxOrder → h.Leaves blocks (page b)) :
    (merge other fuel b h).Ensures (¬linked) (fun h' => Clean linked h' ∧ fuel + h.order b ≤ mallocMaxOrder)
      fun b' h' => ∃ blocks', Merged linked other live blocks h b' h' blocks' := by
  induction fuel generalizing b h blocks with
  | zero => exact ⟨sound.clean, (Nat.zero_add _).symm ▸ (sound.tiled.bounds b hb).2⟩
  | succ fuel ih =>
    have bounds := sound.tiled.bounds b hb
    have self : floor (h.order b) b = b := floor_self (sound.tiled.aligned b hb)
    rcases Nat.lt_or_ge (h.order b) mallocMaxOrder with room | top
    · obtain ⟨hu, -⟩ := sound.tiled.buddy_mem hb room
      have nonnull : b ^^^ 2 ^ h.order b ≠ 0 := sound.ne_zero hu
      rw [Arena.merge, if_neg nonnull]
      rw [show h.use other (b ^^^ 2 ^ h.order b) = .ok () h from sound.use hu]
      simp only [HeapResult.bind]
      have met : buddyAt b (h.order b) = b ^^^ 2 ^ h.order b := by rw [buddyAt, self]
      have positive := Nat.two_pow_pos (h.order b)
      have order (taken : h.available (b ^^^ 2 ^ h.order b) = true) : h.order (b ^^^ 2 ^ h.order b) = h.order b := by
        rw [← met] at taken ⊢
        refine matched _ (Nat.le_refl _) room fun i low high => ?_
        obtain rfl : i = h.order b := by omega
        exact taken
      have onward (a u : Nat) (up : (h.join a u).order a = h.order b + 1) (relinked : Relinked blocks h (h.join a u))
          (rest : (Arena.merge other fuel a (h.join a u)).Ensures (¬linked)
            (fun h' => Clean linked h' ∧ fuel + (h.join a u).order a ≤ mallocMaxOrder)
            fun b' h' => ∃ blocks', Merged linked other live (blocks \ {u}) (h.join a u) b' h' blocks') :
          (Arena.merge other fuel a (h.join a u)).Ensures (¬linked)
            (fun h' => Clean linked h' ∧ fuel + 1 + h.order b ≤ mallocMaxOrder)
            fun b' h' => ∃ blocks', Merged linked other live blocks h b' h' blocks' := by
        refine rest.weaken (fun h' stopped => ⟨stopped.1, ?_⟩) ?_
        · have least := stopped.2
          rw [up] at least
          omega
        · rintro b' h' ⟨blocks', merged⟩
          exact ⟨blocks', merged.after Set.sdiff_subset relinked⟩
      split_ifs with both lower
      · rcases buddy_cases (sound.tiled.aligned b hb) with ⟨-, above⟩ | ⟨higher, above⟩
        · rw [buddy] at above
          omega
        · have half : floor (h.order b + 1) b = b ^^^ 2 ^ h.order b := (floor_succ higher b).mpr (.inr (self.trans above))
          obtain ⟨sound', ha, free', up, matched', leaves'⟩ := sound.merge_step hb hu hb above (order both.1) rfl half
            room both.1 free (met ▸ both.1) matched leaves
          exact onward _ _ up (sound.join_relinked hu _) (ih sound' ha free' matched' leaves')
      · rcases buddy_cases (sound.tiled.aligned b hb) with ⟨higher, above⟩ | ⟨-, above⟩
        · obtain ⟨sound', ha, free', up, matched', leaves'⟩ := sound.merge_step hb hb hu above rfl (order both.1)
            (floor_self higher) room free both.1 (met ▸ both.1) matched leaves
          exact onward _ _ up (sound.join_relinked hb _) (ih sound' ha free' matched' leaves')
        · rw [buddy] at above
          omega
      · exact ⟨blocks, sound, hb, free, fun _ whole => absurd whole (Nat.ne_of_lt room), subset_rfl, .refl h⟩
    · have whole : h.order b = mallocMaxOrder := Nat.le_antisymm bounds.2 top
      have base : page b = b := by rwa [whole] at self
      have leaves' (is : linked) : h.Leaves blocks b :=
        base ▸ leaves is fun i low high => absurd (Nat.lt_of_le_of_lt (top.trans low) high) (Nat.lt_irrefl _)
      rw [Arena.merge]
      by_cases none : b ^^^ 2 ^ h.order b = 0
      · rw [if_pos none]
        exact ⟨blocks, sound, hb, free, fun is _ => leaves' is, subset_rfl, .refl h⟩
      · rw [if_neg none]
        refine (sound.use_any (b ^^^ 2 ^ h.order b) fun is => ?_).bind ?_
        · rw [whole] at none ⊢
          exact sound.base_mem ((leaves' is).1.resolve_left none)
        · rintro _ _ ⟨sound', s, rfl⟩
          rw [if_neg fun both => absurd both.2 (Nat.not_lt.mpr top)]
          exact ⟨blocks, sound', hb, free, fun is _ => leaves' is, subset_rfl, fun _ _ => rfl, fun _ _ => rfl⟩

/-- What free leaves of the heap `h` whose blocks were `blocks`. -/
structure Freed (linked : Prop) (other : Nat → Bool) (live : List (Nat × Nat)) (blocks : Set Nat) (p : Nat)
    (h h' : Arena) : Prop where
  sound : ∃ blocks', h'.Sound linked other blocks' (live.filter fun y => y.1 ≠ p)
  headers : linked → OnlyHeaders blocks h h'
  released : linked → h'.available (p - blockSize) = true

/-- free takes a pointer away. With fuel for each order it returns. -/
theorem Sound.freed (sound : h.Sound linked other blocks live) (fuel : Nat) (x : Nat × Nat) (member : x ∈ live)
    (matched : h.Matched (x.1 - blockSize)) (tidy : linked → h.Tidy (x.1 - blockSize)) :
    (h.free other fuel x.1).Ensures (¬linked) (fun h' => Clean linked h' ∧ fuel ≤ mallocMaxOrder)
      fun _ h' => Freed linked other live blocks x.1 h h' := by
  obtain ⟨b, hb, at', used, -⟩ := sound.pointers x member
  rw [at', Nat.add_sub_cancel] at matched tidy
  have nonnull : x.1 ≠ 0 := by
    rw [at', blockSize]
    omega
  have dvd := sound.dvd hb
  obtain ⟨h₁, is₁⟩ : ∃ h₁, h.put b { h.header b with available := 1 } = h₁ := ⟨_, rfl⟩
  have kept {β : Type} (f : Header → β) {a : Nat} (ha : 32 ∣ a)
      (same : f { h.header b with available := 1 } = f (h.header b)) : f (h₁.header a) = f (h.header a) := by
    rw [← is₁]
    exact field_put h f _ ha dvd same
  have marked : h₁.Sound linked other blocks (live.filter fun y => y.1 ≠ x.1) := by
    rw [← is₁]
    refine sound.mark hb 1 ((List.filter_sublist.map _).nodup sound.once) fun y hy => .inl ?_
    obtain ⟨inside, away⟩ := List.mem_filter.mp hy
    exact ⟨inside, at' ▸ of_decide_eq_true away⟩
  have free : h₁.available b = true := by
    rw [← is₁, available, header_put]
    rfl
  have order : h₁.order b = h.order b := kept (fun x => x.k.toNat) dvd rfl
  have same (i : Nat) (low : h₁.order b ≤ i) : h₁.header (buddyAt b i) = h.header (buddyAt b i) := by
    have least := (sound.tiled.bounds b hb).1
    rw [order] at low
    rw [← is₁]
    exact header_put_of_ne _ _ (dvd_of_le (Nat.le_trans least low) (dvd_buddyAt b i)) dvd (buddyAt_ne rfl)
  have began (i : Nat) (low : h.order b ≤ i) (high : i < h₁.order b) : h.available (buddyAt b i) = true := by omega
  have leaves (is : linked) (joins : h₁.Joins b mallocMaxOrder) : h₁.Leaves blocks (page b) := by
    obtain ⟨chunk, before⟩ := tidy is (joins.back began fun i low _ => ⟨rfl, header_available (same i low)⟩)
    have chunks : h₁.chunks = h.chunks := by rw [← is₁, put_chunks]
    have first : h₁.firstBlock = h.firstBlock := by rw [← is₁, put_firstBlock]
    refine ⟨chunks ▸ chunk, fun notFirst => ?_⟩
    obtain ⟨hp, link, -⟩ := (sound.listed is).1.follows.mp (before.resolve_left (first ▸ notFirst))
    have base := sound.base_mem (sound.tiled.inside b hb)
    have prev : h₁.prev (page b) = h.prev (page b) := kept (fun x => x.prev.toNat) (sound.dvd base) rfl
    have next : h₁.next (h.prev (page b)) = h.next (h.prev (page b)) := kept (fun x => x.next.toNat) (sound.dvd hp) rfl
    rw [prev]
    exact ⟨hp, next.trans link⟩
  have stored : OnlyHeaders blocks h h₁ := by
    rw [← is₁]
    exact .put h hb _
  have released {h' : Arena} {bs : Set Nat} (relinked : Relinked bs h₁ h') : h'.available (x.1 - blockSize) = true := by
    rw [at', Nat.add_sub_cancel, relinked.marks b dvd, free]
  rw [Arena.free, if_neg nonnull]
  simp only [at', Nat.add_sub_cancel, sound.use hb, HeapResult.bind, is₁]
  have merged := marked.merge fuel hb free (matched.onward (Nat.le_of_eq order.symm) began fun i low _ => ⟨rfl, same i low⟩)
    leaves
  refine (merged.weaken (fun h' stopped => ⟨stopped.1, by omega⟩) fun _ _ done => done).bind ?_
  rintro b' h' ⟨blocks', merged⟩
  split_ifs with whole
  · refine (merged.sound.shrink merged.member whole.1 merged.free whole.2
      fun is => (merged.leaves is whole.1).2 whole.2).imp ?_
    rintro _ h'' ⟨sound'', relinked⟩
    have all (is : linked) : Relinked blocks h₁ h'' := merged.relinked.trans ((relinked is).mono merged.fewer)
    exact ⟨⟨_, at' ▸ sound''⟩, fun is => stored.trans (all is).headers, fun is => at' ▸ released (all is)⟩
  · exact ⟨⟨blocks', at' ▸ merged.sound⟩, fun _ => stored.trans merged.relinked.headers,
      fun _ => at' ▸ released merged.relinked⟩

/-- A free returns if it has fuel for each order. -/
theorem Sound.free_returns (sound : h.Sound True other blocks live) {x : Nat × Nat} (member : x ∈ live)
    (matched : h.Matched (x.1 - blockSize)) (tidy : h.Tidy (x.1 - blockSize)) {fuel : Nat} (enough : mallocMaxOrder < fuel) :
    ∃ h', h.free other fuel x.1 = .ok () h' ∧ Freed True other live blocks x.1 h h' := by
  have freed := sound.freed fuel x member matched fun _ => tidy
  cases returned : h.free other fuel x.1 with
  | ok value h' =>
    rw [returned] at freed
    exact ⟨h', rfl, freed⟩
  | fault =>
    rw [returned] at freed
    exact absurd trivial freed
  | overread h' =>
    rw [returned] at freed
    exact absurd freed.2 (Nat.not_le.mpr enough)
  | unfinished h' =>
    rw [returned] at freed
    exact absurd freed.2 (Nat.not_le.mpr enough)

theorem Sound.free (sound : h.Sound linked other blocks live) (fuel : Nat) (x : Nat × Nat) (member : x ∈ live)
    (matched : h.Matched (x.1 - blockSize)) (tidy : linked → h.Tidy (x.1 - blockSize)) :
    Keeps linked (h.free other fuel x.1) fun _ h' => ∃ blocks', h'.Sound linked other blocks'
      (live.filter fun y => y.1 ≠ x.1) :=
  (sound.freed fuel x member matched tidy).weaken (fun _ stopped => stopped.1) fun _ _ freed => freed.sound

end Arena

end Anthill
