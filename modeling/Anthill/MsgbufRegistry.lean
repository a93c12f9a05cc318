import Anthill.MsgbufTasks
import Anthill.Run

set_option autoImplicit false

namespace Anthill

theorem firstChar_zero (s : List CChar) : (firstChar s).toNat = 0 ↔ s = [] := by
  cases s with
  | nil => simp [firstChar]
  | cons c s =>
    simp only [firstChar, reduceCtorEq, iff_false]
    exact fun zero => c.property (BitVec.eq_of_toNat_eq zero)

theorem strncmpFrom_zero (n : Nat) (left right : List CChar) :
    strncmpFrom n left right = 0 ↔ left.take (n + 1) = right.take (n + 1) := by
  fun_induction strncmpFrom n left right with
  | case1 n c left right ih => simpa using ih
  | case2 n c left d right different =>
    have away : c.val.toNat ≠ d.val.toNat := fun same =>
      different (Subtype.ext (BitVec.eq_of_toNat_eq same))
    simp only [List.take_succ_cons, List.cons.injEq, different, false_and, iff_false]
    omega
  | case3 n left right last =>
    have chars : ((firstChar left).toNat : Int) - (firstChar right).toNat = 0 ↔
        (firstChar left).toNat = (firstChar right).toNat := by omega
    rw [chars]
    rcases left with _ | ⟨c, left⟩ <;> rcases right with _ | ⟨d, right⟩
    · simp
    · rw [eq_comm, show (firstChar []).toNat = 0 from rfl, firstChar_zero]
      simp
    · rw [show (firstChar []).toNat = 0 from rfl, firstChar_zero]
      simp
    · cases n with
      | zero => simp [firstChar, ← BitVec.toNat_eq, Subtype.ext_iff]
      | succ n => exact (last n c left d right rfl rfl rfl).elim

/-- On names that fit the array, strncmp tells equal from different. -/
theorem strncmp_zero (left right : List CChar) (shortL : left.length ≤ msbNameMax)
    (shortR : right.length ≤ msbNameMax) : strncmp left right msbNameMax = 0 ↔ left = right := by
  rw [strncmp, strncmpFrom_zero, show msbNameMax - 1 + 1 = msbNameMax from rfl,
    List.take_of_length_le shortL, List.take_of_length_le shortR]

section Buf

variable (reg : Registry) (n : Nat) (f : Msgbuf → Msgbuf)

@[simp] theorem Registry.setBuf_length : (reg.setBuf n f).nodes.length = reg.nodes.length :=
  Paged.length_modify ..

@[simp] theorem Registry.setBuf_next : (reg.setBuf n f).next = reg.next := rfl

theorem Registry.buf_setBuf_self (inside : n < reg.nodes.length * nodeBufCnt) :
    (reg.setBuf n f).buf n = f (reg.buf n) := by
  obtain ⟨msgbuf, here⟩ := Option.isSome_iff_exists.mp ((Paged.get_isSome reg.nodes n).mpr inside)
  simp only [Registry.buf, Registry.setBuf, Paged.get_modify_self, here, Option.map_some,
    Option.getD_some]

theorem Registry.buf_setBuf_of_ne (m : Nat) (away : m ≠ n) : (reg.setBuf n f).buf m = reg.buf m := by
  simp only [Registry.buf, Registry.setBuf, Paged.get_modify_of_ne reg.nodes n m f away]

theorem Registry.buf_outside (outside : ¬ n < reg.nodes.length * nodeBufCnt) : reg.buf n = .blank := by
  rw [Registry.buf]
  cases here : Paged.get reg.nodes n with
  | none => rfl
  | some msgbuf => exact absurd ((Paged.get_isSome reg.nodes n).mp (by rw [here]; rfl)) outside

theorem Registry.setBuf_outside (outside : ¬ n < reg.nodes.length * nodeBufCnt) (m : Nat) :
    (reg.setBuf n f).buf m = reg.buf m := by
  by_cases here : m = n
  · subst here
    rw [reg.buf_outside m outside, Registry.buf_outside _ m (by simpa using outside)]
  · exact reg.buf_setBuf_of_ne n f m here

/-- A message buffer is live while it has a name. -/
def Registry.Live : Prop := (reg.buf n).name ≠ []

theorem Registry.Live.inside {reg : Registry} {n : Nat} (live : reg.Live n) :
    n < reg.nodes.length * nodeBufCnt := by
  by_contra outside
  exact live (by rw [reg.buf_outside n outside]; rfl)

theorem Registry.nodes_ne (inside : n < reg.nodes.length * nodeBufCnt) : reg.nodes ≠ [] := by
  intro empty
  rw [empty, List.length_nil] at inside
  omega

/-- _msgbuf_get finds the live message buffers, where no pointer is followed out of the list. -/
theorem msgbufGet_eq (id : Int) (listed : reg.nodes ≠ []) (last : reg.next = 0) :
    msgbufGet reg id =
      .ok (if id < 0 ∨ (reg.buf id.toNat).name = [] then none else some id.toNat) := by
  unfold msgbufGet Registry.nodeOf
  rw [if_neg listed]
  by_cases negative : id < 0
  · simp [negative, last]
  · simp only [negative, if_false, false_or, Registry.buf, Paged.get]
    cases reg.nodes[id.toNat / nodeBufCnt]? with
    | none => simp [last, Msgbuf.blank]
    | some node => simp

end Buf

/-- What the searches for names rely on. -/
structure Registry.Named (reg : Registry) : Prop where
  last : reg.next = 0
  short : ∀ n, (reg.buf n).name.length ≤ msbNameMax
  distinct : ∀ i j, reg.Live i → (reg.buf i).name = (reg.buf j).name → i = j

def Clash (name : List CChar) (node : Buffers) : Prop := ∃ i, strncmp name (node i).name msbNameMax = 0

-- The inner loop stops at a name collision, keeps an id, or takes the first empty message buffer.
theorem scanNode_cases (name : List CChar) (listIdx : Nat) (node : Buffers) (id : Option Nat) :
    (Clash name node ∧ scanNode name listIdx node id = none) ∨
    (¬ Clash name node ∧ scanNode name listIdx node id =
      some (id.or ((Slots.first fun i => (node i).name = []).map fun i => listIdx * nodeBufCnt + i.val))) := by
  unfold scanNode
  cases found : Slots.first fun i => decide (strncmp name (node i).name msbNameMax = 0) with
  | some i => exact .inl ⟨⟨i, of_decide_eq_true (Slots.first_some _ i found)⟩, rfl⟩
  | none =>
    refine .inr ⟨?_, ?_⟩
    · rintro ⟨i, same⟩
      exact of_decide_eq_false ((Slots.first_none _).mp found i) same
    · cases id <;> rfl

theorem scanNodes_none (name : List CChar) (listIdx : Nat) (nodes : List Buffers) (id : Option Nat) :
    scanNodes name listIdx nodes id = none ↔ ∃ node, node ∈ nodes ∧ Clash name node := by
  induction nodes generalizing listIdx id with
  | nil => simp [scanNodes]
  | cons node nodes ih =>
    rcases scanNode_cases name listIdx node id with ⟨clash, here⟩ | ⟨clear, here⟩
    · simp [scanNodes, here, clash]
    · simp [scanNodes, here, clear, ih]

theorem scanNodes_kept (name : List CChar) (listIdx : Nat) (nodes : List Buffers) (id : Nat)
    (found : Option Nat) (scanned : scanNodes name listIdx nodes (some id) = some found) :
    found = some id := by
  induction nodes generalizing listIdx with
  | nil => exact (Option.some.inj scanned).symm
  | cons node nodes ih =>
    rcases scanNode_cases name listIdx node (some id) with ⟨_, here⟩ | ⟨_, here⟩
    · simp [scanNodes, here] at scanned
    · simp only [scanNodes, here] at scanned
      exact ih _ scanned

-- The message buffer that the search finds is the first empty one, and it finds one if there is any.
theorem scanNodes_some (name : List CChar) (listIdx : Nat) (nodes : List Buffers) (found : Option Nat)
    (scanned : scanNodes name listIdx nodes none = some found) :
    (∀ id, found = some id → ∃ p node i, nodes[p]? = some node ∧
      id = (listIdx + p) * nodeBufCnt + i.val ∧ (node i).name = [] ∧
      ∀ q node' j, nodes[q]? = some node' → q < p ∨ (q = p ∧ j < i) → (node' j).name ≠ []) ∧
    (found = none → ∀ node, node ∈ nodes → ∀ i, (node i).name ≠ []) := by
  induction nodes generalizing listIdx with
  | nil =>
    obtain rfl := Option.some.inj scanned
    simp
  | cons node nodes ih =>
    rcases scanNode_cases name listIdx node none with ⟨_, here⟩ | ⟨_, here⟩
    · simp [scanNodes, here] at scanned
    · simp only [scanNodes, here, Option.none_or] at scanned
      cases slot : Slots.first fun i => decide ((node i).name = []) with
      | some i =>
        rw [slot] at scanned
        obtain rfl := scanNodes_kept name _ nodes _ found scanned
        refine ⟨fun id same => ⟨0, node, i, rfl, ?_, by simpa using Slots.first_some _ i slot, ?_⟩, by simp⟩
        · rw [Nat.add_zero]
          exact (Option.some.inj same).symm
        · rintro q node' j there (before | ⟨rfl, before⟩)
          · omega
          · obtain rfl := Option.some.inj there
            simpa using Slots.first_least _ i j slot before
      | none =>
        rw [slot] at scanned
        obtain ⟨hit, miss⟩ := ih (listIdx + 1) scanned
        constructor
        · intro id same
          obtain ⟨p, node', i, there, rfl, empty, before⟩ := hit id same
          refine ⟨p + 1, node', i, there, by rw [Nat.add_right_comm, Nat.add_assoc], empty, ?_⟩
          intro q node'' j there' earlier
          cases q with
          | zero =>
            obtain rfl := Option.some.inj there'
            simpa using (Slots.first_none _).mp slot j
          | succ q => exact before q node'' j there' (by omega)
        · rintro same node' member i
          rcases List.mem_cons.mp member with rfl | member
          · simpa using (Slots.first_none _).mp slot i
          · exact miss same node' member i

/-- The pages handed out for nodes hold no names, and from the second one on no next node. -/
def Stale.Clean (stale : Stale) : Prop :=
  ∀ n, (∀ i, ((stale n).buffers i).name = []) ∧ (0 < n → (stale n).next = 0)

-- The list with one more node. The first one gets a NULL `next`.
def Registry.grow (reg : Registry) (stale : Stale) : Registry :=
  ⟨reg.nodes ++ [(stale reg.nodes.length).buffers],
    if reg.nodes = [] then 0 else (stale reg.nodes.length).next⟩

/-- The registry in which _msgbuf_alloc writes the name of message buffer `id`: it has the nodes of `reg`
and at most one more. -/
structure Allotted (reg reg' : Registry) (id : Nat) : Prop where
  last : reg'.next = 0
  more : reg.nodes.length ≤ reg'.nodes.length
  old : ∀ n, n < reg.nodes.length * nodeBufCnt → reg'.buf n = reg.buf n
  new : ∀ n, ¬ n < reg.nodes.length * nodeBufCnt → (reg'.buf n).name = []
  inside : id < reg'.nodes.length * nodeBufCnt
  free : ¬ reg'.Live id
  first : ∀ n, n < id → reg.Live n

theorem Allotted.name {reg reg' : Registry} {id : Nat} (allotted : Allotted reg reg' id) (n : Nat) :
    (reg'.buf n).name = (reg.buf n).name := by
  by_cases inside : n < reg.nodes.length * nodeBufCnt
  · rw [allotted.old n inside]
  · rw [allotted.new n inside, reg.buf_outside n inside]
    rfl

def Registry.Full (reg : Registry) : Prop := ∀ n, n < reg.nodes.length * nodeBufCnt → reg.Live n

-- The search takes a page for one more node when there is no empty message buffer.
def NodeTaken (stale : Stale) (reg reg' : Registry) (k k' : Kernel) : Prop :=
  (¬ reg.Full ∧ reg' = reg ∧ k' = k) ∨
    (reg.Full ∧ reg' = reg.grow stale ∧ ∃ va, memKernelAllocPage k .rw = (⟨va, .ok⟩, k'))

section Alloc

variable {stale : Stale} {name : List CChar} (k : Kernel) {reg : Registry}
  (nonempty : name ≠ []) (fits : name.length ≤ msbNameMax)

include nonempty fits

omit fits in
theorem clash_blank (node : Buffers) (blank : ∀ i, (node i).name = []) : ¬ Clash name node := by
  rintro ⟨i, same⟩
  rw [blank i, strncmp, strncmpFrom_zero] at same
  simp [nonempty] at same

theorem Registry.Named.clash (named : reg.Named) :
    (∃ node, node ∈ reg.nodes ∧ Clash name node) ↔ ∃ n, (reg.buf n).name = name := by
  constructor
  · rintro ⟨node, member, i, same⟩
    obtain ⟨p, there⟩ := List.mem_iff_getElem?.mp member
    have here : reg.buf (p * nodeBufCnt + i.val) = node i := by
      rw [Registry.buf, Paged.get_of_place, there]
      rfl
    refine ⟨p * nodeBufCnt + i.val, ?_⟩
    have short := named.short (p * nodeBufCnt + i.val)
    rw [here] at short ⊢
    exact ((strncmp_zero name _ fits short).mp same).symm
  · rintro ⟨n, rfl⟩
    have inside := Registry.Live.inside nonempty
    obtain ⟨msgbuf, here⟩ := Option.isSome_iff_exists.mp ((Paged.get_isSome reg.nodes n).mpr inside)
    obtain ⟨p, node, i, there, rfl, same⟩ := (Paged.get_some_iff _ _ _).mp here
    refine ⟨node, List.mem_of_getElem? there, i, ?_⟩
    rw [Registry.buf, here, ← same] at fits ⊢
    exact (strncmp_zero _ _ fits fits).mpr rfl

omit nonempty fits in
theorem grow_allotted (clean : stale.Clean) (full : reg.Full) :
    Allotted reg (reg.grow stale) (reg.nodes.length * nodeBufCnt) := by
  have length : (reg.grow stale).nodes.length * nodeBufCnt = reg.nodes.length * nodeBufCnt + 18 := by
    simp [Registry.grow, Nat.succ_mul]
  have old (n : Nat) (inside : n < reg.nodes.length * nodeBufCnt) :
      (reg.grow stale).buf n = reg.buf n := by
    simp only [Registry.buf, Registry.grow, Paged.get_append_old _ _ n inside]
  have new (n : Nat) (outside : ¬ n < reg.nodes.length * nodeBufCnt) :
      ((reg.grow stale).buf n).name = [] := by
    by_cases far : n < (reg.grow stale).nodes.length * nodeBufCnt
    · have place : reg.nodes.length * nodeBufCnt + (n - reg.nodes.length * nodeBufCnt) = n := by omega
      have here := Paged.get_append_new reg.nodes (stale reg.nodes.length).buffers
        ⟨n - reg.nodes.length * nodeBufCnt, by
          have width : nodeBufCnt = 18 := rfl
          omega⟩
      rw [place] at here
      simp only [Registry.buf, Registry.grow, here, Option.getD_some]
      exact (clean reg.nodes.length).1 _
    · rw [Registry.buf_outside _ n far]
      rfl
  refine ⟨?_, ?_, old, new, by rw [length]; omega, fun live => live (new _ (by omega)), full⟩
  · rw [Registry.grow]
    split_ifs with empty
    · rfl
    · exact (clean reg.nodes.length).2 (List.length_pos_iff.mpr empty)
  · simp [Registry.grow]

theorem findSlot_cases (clean : stale.Clean) (named : reg.Named) (listed : reg.nodes ≠ []) :
    ((∃ n, (reg.buf n).name = name) ∧ findSlot stale name k reg = .ok (.error .msbExs, k, reg)) ∨
    ((∀ n, (reg.buf n).name ≠ name) ∧
      ((∃ va err k', err ≠ .ok ∧ reg.Full ∧ memKernelAllocPage k .rw = (⟨va, err⟩, k') ∧
          findSlot stale name k reg = .ok (.error err, k', reg)) ∨
        ∃ id k' reg', NodeTaken stale reg reg' k k' ∧ Allotted reg reg' id ∧
          findSlot stale name k reg = .ok (.ok id, k', reg'))) := by
  have clash := named.clash nonempty fits
  unfold findSlot
  cases scanned : scanNodes name 0 reg.nodes none with
  | none => exact .inl ⟨clash.mp ((scanNodes_none name 0 reg.nodes none).mp scanned), rfl⟩
  | some found =>
    have clear : ∀ n, (reg.buf n).name ≠ name := by
      rw [← not_exists, ← clash, ← scanNodes_none name 0 reg.nodes none, scanned]
      simp
    refine .inr ⟨clear, ?_⟩
    have hits := scanNodes_some name 0 reg.nodes found scanned
    cases found with
    | some id =>
      obtain ⟨p, node, i, there, rfl, empty, before⟩ := hits.1 id rfl
      rw [Nat.zero_add] at *
      have here : Paged.get reg.nodes (p * nodeBufCnt + i.val) = some (node i) := by
        rw [Paged.get_of_place, there, Option.map_some]
      have inside : p * nodeBufCnt + i.val < reg.nodes.length * nodeBufCnt := by
        rw [← Paged.get_isSome, here]
        rfl
      have free : ¬ reg.Live (p * nodeBufCnt + i.val) := by
        rw [Registry.Live, Registry.buf, here]
        exact not_not.mpr empty
      refine .inr ⟨p * nodeBufCnt + i.val, k, reg, .inl ⟨fun full => free (full _ inside), rfl, rfl⟩,
        ⟨named.last, le_rfl, fun _ _ => rfl, fun n outside => ?_, inside, free, fun n less => ?_⟩, ?_⟩
      · rw [reg.buf_outside n outside]
        rfl
      · obtain ⟨msgbuf, here'⟩ := Option.isSome_iff_exists.mp
          ((Paged.get_isSome reg.nodes n).mpr (less.trans inside))
        obtain ⟨q, node', j, there', rfl, same⟩ := (Paged.get_some_iff _ _ _).mp here'
        rw [Registry.Live, Registry.buf, here', Option.getD_some, ← same]
        refine before q node' j there' ?_
        have less : q * 18 + j.val < p * 18 + i.val := less
        have insideI : i.val < 18 := i.isLt
        rw [Fin.lt_def]
        omega
      · simp only [growNodes, named.last, if_true]
    | none =>
      have full : reg.Full := by
        intro n inside
        obtain ⟨msgbuf, here⟩ := Option.isSome_iff_exists.mp ((Paged.get_isSome reg.nodes n).mpr inside)
        obtain ⟨p, node, i, there, rfl, same⟩ := (Paged.get_some_iff _ _ _).mp here
        have named := hits.2 rfl node (List.mem_of_getElem? there) i
        rw [Registry.Live, Registry.buf, here, Option.getD_some, ← same]
        exact named
      obtain ⟨fuel, frames⟩ : ∃ fuel, managed = fuel + 1 := ⟨managed - 1, by decide⟩
      simp only [frames, growNodes, named.last, ne_eq, not_true_eq_false, if_false]
      rcases taken : memKernelAllocPage k .rw with ⟨⟨va, err⟩, k'⟩
      by_cases done : err = .ok
      · subst done
        have far : 0 < reg.nodes.length := List.length_pos_iff.mpr listed
        have page := clean reg.nodes.length
        have scan : scanNode name reg.nodes.length (stale reg.nodes.length).buffers none =
            some (some (reg.nodes.length * nodeBufCnt)) := by
          rcases scanNode_cases name reg.nodes.length (stale reg.nodes.length).buffers none with
            ⟨clash', _⟩ | ⟨_, here⟩
          · exact absurd clash' (clash_blank nonempty _ page.1)
          · have front : (Slots.first fun i => decide (((stale reg.nodes.length).buffers i).name = [])) =
                some 0 := by
              simp only [page.1, decide_true]
              rfl
            rw [here, front]
            simp
        refine .inr ⟨_, k', reg.grow stale, .inr ⟨full, rfl, va, taken⟩, grow_allotted clean full, ?_⟩
        simp only [scan, growNodes, page.2 far, if_true]
        rw [Registry.grow, page.2 far, if_neg listed]
      · refine .inl ⟨va, err, k', done, full, rfl, ?_⟩
        cases err <;> first | exact absurd rfl done | rfl

omit nonempty fits in
theorem Registry.named_first (clean : stale.Clean) :
    Registry.Named ⟨[(stale 0).buffers], 0⟩ ∧ ∀ n, ¬ Registry.Live ⟨[(stale 0).buffers], 0⟩ n := by
  have none (n : Nat) : (Registry.buf ⟨[(stale 0).buffers], 0⟩ n).name = [] := by
    by_cases inside : n < 1 * nodeBufCnt
    · have here := Paged.get_append_new [] (stale 0).buffers (Paged.place nodeBufCnt n)
      have place : ([] : List Buffers).length * nodeBufCnt + (Paged.place nodeBufCnt n).val = n := by
        simp only [List.length_nil, Paged.place, Nat.mod_eq_of_lt (by omega : n < nodeBufCnt)]
        omega
      rw [place, List.nil_append] at here
      simp only [Registry.buf, here, Option.getD_some]
      exact (clean 0).1 _
    · rw [Registry.buf_outside ⟨[(stale 0).buffers], 0⟩ n inside]
      rfl
  exact ⟨⟨rfl, fun n => by rw [none n]; exact Nat.zero_le _, fun i j live => absurd (none i) live⟩,
    fun n live => live (none n)⟩

/-- _msgbuf_alloc refuses a live name, fails for want of a page, or takes an empty message buffer. -/
theorem msgbufAlloc_cases (clean : stale.Clean) (named : reg.Named) :
    ((∃ n, (reg.buf n).name = name) ∧ msgbufAlloc stale name k reg = .ok (.error .msbExs, k, reg)) ∨
    ((∀ n, (reg.buf n).name ≠ name) ∧
      ((∃ va err k', err ≠ .ok ∧ reg.Full ∧ memKernelAllocPage k .rw = (⟨va, err⟩, k') ∧
          msgbufAlloc stale name k reg = .ok (.error err, k', reg)) ∨
        ∃ id k' reg', NodeTaken stale reg reg' k k' ∧ Allotted reg reg' id ∧ msgbufAlloc stale name k reg =
          .ok (.ok id, k', reg'.setBuf id fun msgbuf => msgbuf.copyName name))) := by
  have long : ¬ msbNameMax < name.length := by omega
  unfold msgbufAlloc
  by_cases listed : reg.nodes = []
  · have blank (n : Nat) : (reg.buf n).name = [] := by
      rw [reg.buf_outside n (by rw [listed]; simp)]
      rfl
    refine .inr ⟨fun n same => nonempty (same.symm.trans (blank n)), ?_⟩
    have full : reg.Full := by
      intro n inside
      rw [listed, List.length_nil] at inside
      omega
    rw [if_pos listed]
    rcases taken : memKernelAllocPage k .rw with ⟨⟨va, err⟩, k'⟩
    by_cases done : err = .ok
    · subst done
      obtain ⟨first, free⟩ := Registry.named_first clean
      have room : ¬ Registry.Full ⟨[(stale 0).buffers], 0⟩ := fun full =>
        free 0 (full 0 (show 0 < 1 * nodeBufCnt by decide))
      rcases findSlot_cases k' nonempty fits clean first (by simp) with
        ⟨⟨n, same⟩, _⟩ | ⟨_, ⟨_, _, _, _, full', _⟩ | ⟨id, k'', reg', node, allotted, done⟩⟩
      · exact absurd (fun empty => nonempty (same.symm.trans empty)) (free n)
      · exact absurd full' room
      · rcases node with ⟨_, rfl, rfl⟩ | ⟨full', _⟩
        · obtain rfl : id = 0 := by
            by_contra positive
            exact free 0 (allotted.first 0 (Nat.pos_of_ne_zero positive))
          have grown : reg.grow stale = ⟨[(stale 0).buffers], 0⟩ := by
            simp [Registry.grow, listed]
          have fresh := grow_allotted clean full
          rw [grown, listed, List.length_nil, Nat.zero_mul] at fresh
          refine .inr ⟨0, k'', _, .inr ⟨full, grown.symm, va, taken⟩, fresh, ?_⟩
          simp only [done, long, if_false]
        · exact absurd full' room
    · refine .inl ⟨va, err, k', done, full, rfl, ?_⟩
      cases err <;> first | exact absurd rfl done | rfl
  · rw [if_neg listed]
    rcases findSlot_cases k nonempty fits clean named listed with
      ⟨taken, done⟩ | ⟨clear, ⟨va, err, k', failed, full, alloc, done⟩ | ⟨id, k', reg', node, allotted, done⟩⟩
    · exact .inl ⟨taken, by rw [done]⟩
    · exact .inr ⟨clear, .inl ⟨va, err, k', failed, full, alloc, by rw [done]⟩⟩
    · refine .inr ⟨clear, .inr ⟨id, k', reg', node, allotted, ?_⟩⟩
      simp only [done, long, if_false]

end Alloc

@[simp] theorem Registry.setBuf_setBuf (reg : Registry) (n : Nat) (f g : Msgbuf → Msgbuf) :
    (reg.setBuf n f).setBuf n g = reg.setBuf n fun msgbuf => g (f msgbuf) := by
  simp [Registry.setBuf]

-- The message buffer that msgbuf_create has named and taken for `owner`.
def Msgbuf.created (msgbuf : Msgbuf) (name : List CChar) (owner : Word) : Msgbuf :=
  (msgbuf.copyName name).claim owner

-- How msgbuf_create ends once it has message buffer `id` of `reg`.
def createEnd (s : MsgSys) (k : Kernel) (reg : Registry) (id : Nat) (name : List CChar) (size : Word)
    (sendBuf : Bool) : Except Halt ((MsgbufRId × Option Word) × MsgSys) :=
  if sendBuf = true then
    match bufferAlloc (s.sys.setKernel k) size with
    | .error halt => .error halt
    | .ok (⟨addr, err⟩, k') =>
      if err = .ok then
        .ok ((⟨id, .ok⟩, some addr), ⟨s.sys.setKernel k', reg.setBuf id fun msgbuf =>
          { msgbuf.created name s.sys.current with addr := addr, size := size }⟩)
      else
        .ok ((⟨-1, err⟩, none), ⟨s.sys.setKernel k', reg.setBuf id fun msgbuf =>
          msgbuf.created name s.sys.current⟩)
  else
    .ok ((⟨id, .ok⟩, none), ⟨s.sys.setKernel k, reg.setBuf id fun msgbuf =>
      { msgbuf.created name s.sys.current with addr := 0, size := 0 }⟩)

section Create

variable {stale : Stale} {s : MsgSys} (name : List CChar) (size : Word) (sendBuf : Bool)

/-- What msgbuf_create returns when it gets no message buffer. -/
theorem msgbufCreate_refused (bad : name.length = 0 ∨ msbNameMax < name.length ∨ (sendBuf = true ∧ size = 0)) :
    ∃ err ∈ [KernErr.msbNam, .msbSiz], msgbufCreate stale s name size sendBuf = .ok ((⟨-1, err⟩, none), s) := by
  unfold msgbufCreate
  by_cases length : name.length = 0 ∨ msbNameMax < name.length
  · exact ⟨.msbNam, by decide, if_pos length⟩
  · rw [if_neg length]
    exact ⟨.msbSiz, by decide, if_pos ((or_assoc.mpr bad).resolve_left length)⟩

/-- A create with proper arguments finds its name taken, gets no page for a node, or takes an empty
message buffer, which it keeps when the allocation of the buffer's memory fails. -/
theorem msgbufCreate_cases (clean : stale.Clean) (named : s.reg.Named) (nonempty : name ≠ [])
    (fits : name.length ≤ msbNameMax) (sized : sendBuf = true → size ≠ 0) :
    ((∃ n, (s.reg.buf n).name = name) ∧
      msgbufCreate stale s name size sendBuf = .ok ((⟨-1, .msbExs⟩, none), s)) ∨
    ((∀ n, (s.reg.buf n).name ≠ name) ∧
      ((∃ va err k, err ≠ .ok ∧ s.reg.Full ∧ memKernelAllocPage s.sys.kernel .rw = (⟨va, err⟩, k) ∧
          msgbufCreate stale s name size sendBuf = .ok ((⟨-1, err⟩, none), ⟨s.sys.setKernel k, s.reg⟩)) ∨
        ∃ id k reg, NodeTaken stale s.reg reg s.sys.kernel k ∧ Allotted s.reg reg id ∧
          msgbufCreate stale s name size sendBuf = createEnd s k reg id name size sendBuf)) := by
  have length : ¬ (name.length = 0 ∨ msbNameMax < name.length) := by
    have := List.length_pos_iff.mpr nonempty
    omega
  have good : ¬ (sendBuf = true ∧ size = 0) := fun bad => sized bad.1 bad.2
  unfold msgbufCreate
  rw [if_neg length, if_neg good]
  rcases msgbufAlloc_cases s.sys.kernel nonempty fits clean named with
    ⟨taken, done⟩ | ⟨clear, ⟨va, err, k, failed, full, alloc, done⟩ | ⟨id, k, reg, node, allotted, done⟩⟩
  · exact .inl ⟨taken, by rw [done]; rfl⟩
  · exact .inr ⟨clear, .inl ⟨va, err, k, failed, full, alloc, by rw [done]⟩⟩
  · refine .inr ⟨clear, .inr ⟨id, k, reg, node, allotted, ?_⟩⟩
    have inside := allotted.inside
    have there : ((reg.setBuf id fun msgbuf => msgbuf.copyName name).buf id).name ≠ [] := by
      rw [Registry.buf_setBuf_self _ _ _ inside]
      simpa [Msgbuf.copyName, List.take_of_length_le fits] using nonempty
    have found : msgbufGet (reg.setBuf id fun msgbuf => msgbuf.copyName name) id = .ok (some id) := by
      rw [msgbufGet_eq (reg.setBuf id fun msgbuf => msgbuf.copyName name) id
        (Registry.nodes_ne _ id (by simpa using inside)) allotted.last]
      have natural : ¬ (id : Int) < 0 := by omega
      simp only [natural, Int.toNat_natCast, there, or_self, if_false]
    simp only [done, found, Registry.setBuf_setBuf]
    unfold createEnd
    split_ifs
    · rcases bufferAlloc (s.sys.setKernel k) size with halt | ⟨⟨addr, err⟩, k'⟩
      · rfl
      · by_cases fine : err = .ok
        · subst fine
          rfl
        · simp only [fine, if_false]
          cases err <;> first | exact absurd rfl fine | rfl
    · rfl

end Create

/-- What becomes of a msgbuf_create: it is refused, it gets no page for a node, or it takes a message buffer. -/
inductive CreateWay (stale : Stale) (s : MsgSys) (name : List CChar) (size : Word) (sendBuf : Bool) : Prop
  | refused (err : KernErr) (code : err ∈ [KernErr.msbNam, .msbSiz, .msbExs])
      (why : (name.length = 0 ∨ msbNameMax < name.length ∨ (sendBuf = true ∧ size = 0)) ∨
        name ≠ [] ∧ ∃ n, (s.reg.buf n).name = name)
      (result : msgbufCreate stale s name size sendBuf = .ok ((⟨-1, err⟩, none), s))
  | full (va : Word) (err : KernErr) (k : Kernel) (failed : err ≠ .ok) (full : s.reg.Full)
      (alloc : memKernelAllocPage s.sys.kernel .rw = (⟨va, err⟩, k))
      (result : msgbufCreate stale s name size sendBuf = .ok ((⟨-1, err⟩, none), ⟨s.sys.setKernel k, s.reg⟩))
  | takes (id : Nat) (k : Kernel) (reg : Registry)
      (good : ¬ (name.length = 0 ∨ msbNameMax < name.length ∨ (sendBuf = true ∧ size = 0)))
      (nonempty : name ≠ []) (fits : name.length ≤ msbNameMax) (clear : ∀ n, (s.reg.buf n).name ≠ name)
      (node : NodeTaken stale s.reg reg s.sys.kernel k) (allotted : Allotted s.reg reg id)
      (result : msgbufCreate stale s name size sendBuf = createEnd s k reg id name size sendBuf)

theorem msgbufCreate_way {stale : Stale} {s : MsgSys} (name : List CChar) (size : Word) (sendBuf : Bool)
    (clean : stale.Clean) (named : s.reg.Named) : CreateWay stale s name size sendBuf := by
  by_cases bad : name.length = 0 ∨ msbNameMax < name.length ∨ (sendBuf = true ∧ size = 0)
  · obtain ⟨err, code, refused⟩ := msgbufCreate_refused name size sendBuf bad
    exact .refused err (List.mem_append_left [_] code) (.inl bad) refused
  · have proper := bad
    push Not at proper
    obtain ⟨positive, fits, sized⟩ := proper
    have nonempty : name ≠ [] := fun empty => positive (by rw [empty]; rfl)
    rcases msgbufCreate_cases name size sendBuf clean named nonempty fits sized with
      ⟨taken, result⟩ | ⟨clear, ⟨va, err, k, failed, full, alloc, result⟩ | ⟨id, k, reg, node, allotted, result⟩⟩
    · exact .refused .msbExs (by decide) (.inr ⟨nonempty, taken⟩) result
    · exact .full va err k failed full alloc result
    · exact .takes id k reg bad nonempty fits clear node allotted result

/-- What msgbuf_create leaves in the message buffer that it takes. -/
structure Claims (f : Msgbuf → Msgbuf) (name : List CChar) (owner : Word) : Prop where
  name : ∀ msgbuf, (f msgbuf).name = name
  owner : ∀ msgbuf, (f msgbuf).owner = owner
  queue : ∀ msgbuf, (f msgbuf).recvQueue = fun _ => -1
  pos : ∀ msgbuf, (f msgbuf).recvQueuePos = msgbuf.recvQueuePos
  conns : ∀ msgbuf, (f msgbuf).connections = fun _ => ⟨-1, 0⟩

theorem msgbufCreate_ok {stale : Stale} {s s' : MsgSys} {name : List CChar} {size : Word} {sendBuf : Bool}
    {r : MsgbufRId} {buf : Option Word} (clean : stale.Clean) (named : s.reg.Named)
    (done : msgbufCreate stale s name size sendBuf = .ok ((r, buf), s')) :
    (∃ k, s' = ⟨s.sys.setKernel k, s.reg⟩ ∧ r.id = -1 ∧ r.err ≠ .ok) ∨
    ∃ id k reg f, name ≠ [] ∧ name.length ≤ msbNameMax ∧ (∀ n, (s.reg.buf n).name ≠ name) ∧
      Allotted s.reg reg id ∧ Claims f name s.sys.current ∧ s' = ⟨s.sys.setKernel k, reg.setBuf id f⟩ ∧
      (r = ⟨id, .ok⟩ ∨ (r.id = -1 ∧ r.err ≠ .ok)) := by
  cases msgbufCreate_way name size sendBuf clean named with
  | refused err code why result =>
    rw [result] at done
    obtain ⟨same, rfl⟩ := Prod.mk.inj (Except.ok.inj done)
    obtain ⟨rfl, _⟩ := Prod.mk.inj same
    exact .inl ⟨s.sys.kernel, rfl, rfl, fun fine => by simp [show err = .ok from fine] at code⟩
  | full va err k failed full alloc result =>
    rw [result] at done
    obtain ⟨same, rfl⟩ := Prod.mk.inj (Except.ok.inj done)
    obtain ⟨rfl, _⟩ := Prod.mk.inj same
    exact .inl ⟨k, rfl, rfl, failed⟩
  | takes id k reg good nonempty fits clear node allotted result =>
    have take : name.take msbNameMax = name := List.take_of_length_le fits
    have claims (addr size : Msgbuf → Word) : Claims (fun msgbuf =>
        { msgbuf.created name s.sys.current with addr := addr msgbuf, size := size msgbuf })
          name s.sys.current :=
      ⟨fun _ => take, fun _ => rfl, fun _ => rfl, fun _ => rfl, fun _ => rfl⟩
    rw [result, createEnd] at done
    split_ifs at done
    · rcases alloc : bufferAlloc (s.sys.setKernel k) size with halt | ⟨⟨addr, err⟩, k'⟩
      · rw [alloc] at done
        cases done
      · simp only [alloc] at done
        split_ifs at done with fine
        all_goals
          obtain ⟨same, after⟩ := Prod.mk.inj (Except.ok.inj done)
          obtain ⟨which, _⟩ := Prod.mk.inj same
        · exact .inr ⟨id, k', reg, _, nonempty, fits, clear, allotted, claims _ _, after.symm,
            .inl which.symm⟩
        · exact .inr ⟨id, k', reg, _, nonempty, fits, clear, allotted, claims _ _, after.symm,
            .inr (by rw [← which]; exact ⟨rfl, fine⟩)⟩
    · obtain ⟨same, after⟩ := Prod.mk.inj (Except.ok.inj done)
      obtain ⟨which, _⟩ := Prod.mk.inj same
      exact .inr ⟨id, k, reg, _, nonempty, fits, clear, allotted, claims _ _, after.symm, .inl which.symm⟩

/-- A change that takes connections away, and nothing else. -/
def DropsConns (f : Msgbuf → Msgbuf) : Prop :=
  ∀ msgbuf, ∃ conns, f msgbuf = { msgbuf with connections := conns } ∧
    ∀ c, conns c = msgbuf.connections c ∨ conns c = ⟨-1, 0⟩

theorem DropsConns.none : DropsConns fun msgbuf => msgbuf :=
  fun msgbuf => ⟨msgbuf.connections, rfl, fun _ => .inl rfl⟩

theorem DropsConns.setConn (c : Fin maxConn) : DropsConns fun msgbuf => msgbuf.setConn c ⟨-1, 0⟩ := by
  refine fun msgbuf => ⟨_, rfl, fun c' => ?_⟩
  rw [Function.update_apply]
  split_ifs
  · exact .inr rfl
  · exact .inl rfl

theorem DropsConns.comp {f g : Msgbuf → Msgbuf} (first : DropsConns f) (second : DropsConns g) :
    DropsConns fun msgbuf => g (f msgbuf) := by
  intro msgbuf
  obtain ⟨conns, after, fewer⟩ := first msgbuf
  obtain ⟨conns', after', fewer'⟩ := second (f msgbuf)
  refine ⟨conns', ?_, fun c => ?_⟩
  · show g (f msgbuf) = _
    rw [after', after]
  · rcases fewer' c with same | gone
    · rw [same, after]
      exact fewer c
    · exact .inr gone

theorem DropsConns.rest {f : Msgbuf → Msgbuf} (drops : DropsConns f) (msgbuf : Msgbuf) :
    (f msgbuf).name = msgbuf.name ∧ (f msgbuf).owner = msgbuf.owner ∧
      (f msgbuf).recvQueue = msgbuf.recvQueue ∧ (f msgbuf).recvQueuePos = msgbuf.recvQueuePos := by
  obtain ⟨conns, after, _⟩ := drops msgbuf
  rw [after]
  exact ⟨rfl, rfl, rfl, rfl⟩

@[simp] theorem Sys.setKernel_setKernel (s : Sys) (k k' : Kernel) :
    (s.setKernel k).setKernel k' = s.setKernel k' := rfl

theorem connFree_ok (s s' : MsgSys) (n : Nat) (recvId : Int) (err : KernErr)
    (done : connFree s n recvId = .ok (err, s')) :
    err = .ok ∧ ∃ k, s' = ⟨s.sys.setKernel k,
      s.reg.setBuf n fun msgbuf => msgbuf.setConn (connSearch (s.reg.buf n) recvId) ⟨-1, 0⟩⟩ := by
  unfold connFree at done
  simp only [] at done
  split at done
  · cases done
  next receiver _ =>
    cases freed : unmapReceiver s ((s.reg.buf n).connections (connSearch (s.reg.buf n) recvId)) receiver
        (memSizeToPages (s.reg.buf n).size).toNat with
    | error halt => rw [freed] at done; cases done
    | ok k =>
      rw [freed] at done
      have same := Prod.mk.inj (Except.ok.inj done)
      exact ⟨same.1.symm, k, same.2.symm⟩

theorem closeConns_ok (n : Nat) (s s' : MsgSys) (conns : List (Fin maxConn))
    (done : closeConns n s conns = .ok s') :
    ∃ k f, DropsConns f ∧ s' = ⟨s.sys.setKernel k, s.reg.setBuf n f⟩ := by
  have nothing (s : MsgSys) : s = ⟨s.sys.setKernel s.sys.kernel, s.reg.setBuf n fun msgbuf => msgbuf⟩ := by
    simp [Sys.setKernel, Registry.setBuf, Paged.modify_id]
  induction conns generalizing s with
  | nil =>
    obtain rfl := Except.ok.inj done
    exact ⟨_, _, .none, nothing s⟩
  | cons c conns ih =>
    unfold closeConns at done
    split_ifs at done with closed
    · exact ih s done
    · cases freed : connFree s n ((s.reg.buf n).connections c).id with
      | error halt => rw [freed] at done; cases done
      | ok result =>
        obtain ⟨err, s₁⟩ := result
        rw [freed] at done
        obtain ⟨_, k, rfl⟩ := connFree_ok s s₁ n _ err freed
        obtain ⟨k', f, drops, rfl⟩ := ih _ done
        have both := (DropsConns.setConn
          (connSearch (s.reg.buf n) ((s.reg.buf n).connections c).id)).comp drops
        exact ⟨k', _, both, by simp only [Sys.setKernel_setKernel, Registry.setBuf_setBuf]⟩

/-- msgbuf_close changes nothing, or drops connections of one of the caller's message buffers, and its
name when the pages could be given back. -/
theorem msgbufClose_ok (s s' : MsgSys) (id : Int) (err : KernErr) (done : msgbufClose s id = .ok (err, s')) :
    s' = s ∨ ∃ n k f, msgbufGet s.reg id = .ok (some n) ∧ s.owns n ∧ DropsConns f ∧
      (s' = ⟨s.sys.setKernel k, s.reg.setBuf n f⟩ ∨
        s' = ⟨s.sys.setKernel k, s.reg.setBuf n fun msgbuf => { f msgbuf with name := [] }⟩) := by
  unfold msgbufClose at done
  cases found : msgbufGet s.reg id with
  | error halt => rw [found] at done; cases done
  | ok got =>
    rw [found] at done
    cases got with
    | none => exact .inl (Prod.mk.inj (Except.ok.inj done)).2.symm
    | some n =>
      simp only [] at done
      split_ifs at done with owned unset
      · refine .inr ⟨n, s.sys.kernel, fun msgbuf => msgbuf, rfl, owned, .none, .inr ?_⟩
        exact (Prod.mk.inj (Except.ok.inj done)).2.symm
      · cases freed : closeConns n s (List.finRange maxConn) with
        | error halt => rw [freed] at done; cases done
        | ok s₁ =>
          rw [freed] at done
          obtain ⟨k, f, drops, rfl⟩ := closeConns_ok n s s₁ _ freed
          simp only [] at done
          split at done
          · cases done
          next k' _ =>
            refine .inr ⟨n, k', f, rfl, owned, drops, .inr ?_⟩
            rw [← (Prod.mk.inj (Except.ok.inj done)).2]
            simp [MsgSys.clearName]
          next k' _ _ =>
            refine .inr ⟨n, k', f, rfl, owned, drops, .inl ?_⟩
            rw [← (Prod.mk.inj (Except.ok.inj done)).2]
            simp
      · exact .inl (Prod.mk.inj (Except.ok.inj done)).2.symm

/-- msgbuf_connect changes no message buffer, or stores one connection in a free place of the sender. -/
theorem msgbufConnect_ok (s s' : MsgSys) (id : Int) (name : List CChar) (r : MsgbufRId)
    (done : msgbufConnect s id name = .ok (r, s')) :
    (∃ k, s' = ⟨s.sys.setKernel k, s.reg⟩ ∧ r.err ≠ .ok) ∨
    ∃ n recvId receiver c recvBuf k, msgbufGet s.reg id = .ok (some n) ∧
      msgbufGetId s.reg name = .ok recvId ∧ recvId ≠ -1 ∧ msgbufGet s.reg recvId = .ok (some receiver) ∧
      connAlloc (s.reg.buf n) recvId = .ok c ∧ r = ⟨recvId, .ok⟩ ∧
      memUserFindEmpty s.sys.kernel.mem (s.sys.table (s.reg.buf receiver).owner)
        (memSizeToPages (s.reg.buf n).size).toNat findEmptyRounds 0x200000 = some recvBuf ∧
      connectLoop (s.sys.table (s.reg.buf n).owner) (s.reg.buf n).addr
        (s.sys.table (s.reg.buf receiver).owner) recvBuf s.sys.kernel 0
        (memSizeToPages (s.reg.buf n).size).toNat = .ok (.ok, k) ∧
      s' = ⟨s.sys.setKernel k, s.reg.setBuf n fun msgbuf => msgbuf.setConn c ⟨recvId, recvBuf⟩⟩ := by
  have refused (err : KernErr) (k : Kernel) (failed : err ≠ .ok)
      (same : Except.ok (ε := Halt) ((⟨-1, err⟩ : MsgbufRId), (⟨s.sys.setKernel k, s.reg⟩ : MsgSys)) = .ok (r, s')) :
      ∃ k, s' = ⟨s.sys.setKernel k, s.reg⟩ ∧ r.err ≠ .ok := by
    obtain ⟨rfl, rfl⟩ := Prod.mk.inj (Except.ok.inj same)
    exact ⟨k, rfl, failed⟩
  unfold msgbufConnect at done
  rcases foundN : msgbufGet s.reg id with halt | _ | n
  · rw [foundN] at done; cases done
  · rw [foundN] at done
    exact .inl (refused .msbFnd s.sys.kernel (by simp) done)
  rcases foundId : msgbufGetId s.reg name with halt | recvId
  · rw [foundN, foundId] at done; cases done
  rcases foundR : msgbufGet s.reg recvId with halt | _ | receiver
  · simp only [foundN, foundId, foundR] at done
    split_ifs at done
    exact .inl (refused .msbFnd s.sys.kernel (by simp) done)
  · simp only [foundN, foundId, foundR] at done
    split_ifs at done
    exact .inl (refused .msbFnd s.sys.kernel (by simp) done)
  simp only [foundN, foundId, foundR] at done
  split_ifs at done with missing
  · exact .inl (refused .msbFnd s.sys.kernel (by simp) done)
  rcases place : connAlloc (s.reg.buf n) recvId with err | c
  · rw [place] at done
    refine .inl (refused err s.sys.kernel ?_ done)
    unfold connAlloc at place
    split at place
    · obtain rfl := Except.error.inj place
      simp
    · split at place
      · obtain rfl := Except.error.inj place
        simp
      · cases place
  rw [place] at done
  rcases space : memUserFindEmpty s.sys.kernel.mem (s.sys.table (s.reg.buf receiver).owner)
    (memSizeToPages (s.reg.buf n).size).toNat findEmptyRounds 0x200000 with _ | recvBuf
  · simp only [space] at done
    cases done
  simp only [space] at done
  split_ifs at done
  · exact .inl (refused .memOom s.sys.kernel (by simp) done)
  rcases mapped : connectLoop (s.sys.table (s.reg.buf n).owner) (s.reg.buf n).addr
    (s.sys.table (s.reg.buf receiver).owner) recvBuf s.sys.kernel 0
    (memSizeToPages (s.reg.buf n).size).toNat with halt | ⟨err, k⟩
  · simp only [mapped] at done
    cases done
  simp only [mapped] at done
  by_cases fine : err = .ok
  · subst fine
    obtain ⟨same, after⟩ := Prod.mk.inj (Except.ok.inj done)
    exact .inr ⟨n, recvId, receiver, c, recvBuf, k, rfl, rfl, missing, foundR, place, same.symm, space, mapped,
      after.symm⟩
  · refine .inl (refused err k fine ?_)
    cases err <;> first | exact absurd rfl fine | exact done

theorem msgbufDisconnect_ok (s s' : MsgSys) (sendId recvId : Int) (err : KernErr)
    (done : msgbufDisconnect s sendId recvId = .ok (err, s')) :
    s' = s ∨ ∃ n r k, msgbufGet s.reg sendId = .ok (some n) ∧ msgbufGet s.reg recvId = .ok (some r) ∧
      s.owns n ∧ connFree s n recvId = .ok (err, s') ∧ s' = ⟨s.sys.setKernel k,
        s.reg.setBuf n fun msgbuf => msgbuf.setConn (connSearch (s.reg.buf n) recvId) ⟨-1, 0⟩⟩ := by
  unfold msgbufDisconnect at done
  rcases foundN : msgbufGet s.reg sendId with halt | _ | n <;>
    rcases foundR : msgbufGet s.reg recvId with halt' | _ | r <;>
    simp only [foundN, foundR] at done
  all_goals try exact .inl (Prod.mk.inj (Except.ok.inj done)).2.symm
  all_goals try cases done
  split_ifs at done with owned
  · obtain ⟨_, k, after⟩ := connFree_ok s s' n recvId err done
    exact .inr ⟨n, r, k, rfl, rfl, owned, done, after⟩
  · exact .inl (Prod.mk.inj (Except.ok.inj done)).2.symm

end Anthill
