import Anthill.MqueueLifetime

set_option autoImplicit false

namespace Anthill

/-- A run with the name that the last queue of each slot was made under, and how many queues were made. -/
structure MqNames where
  sys : MqSys
  name : Fin mqMaxOpen → List Byte
  made : Nat

def MqNames.boot : MqNames := ⟨.boot, fun _ => [], 0⟩

-- The characters of the name before its NUL.
def MqCall.name : MqCall → List Byte
  | .open _ name _ _ | .unlink _ name => name
  | _ => []

def MqNames.record (n : MqNames) (call : MqCall) (s' : MqSys) : MqNames where
  sys := s'
  name q := if (call.creates n.sys.queues).map Prod.fst = some q then call.name else n.name q
  made := if call.creates n.sys.queues = none then n.made else n.made + 1

def MqNames.Step (n : MqNames) (call : MqCall) (n' : MqNames) : Prop :=
  ∃ out s', n.sys.Step call out s' ∧ n' = n.record call s'

-- A new queue gets the hash of the name it is made under.
theorem creates_hash (s s' : Mqueues) (call : MqCall) (out : MqOutcome) (q : Fin mqMaxOpen)
    (done : call.act s = .ok (out, s')) (creates : (call.creates s).map Prod.fst = some q) :
    (s'.openQueues q).hash = strhash call.name := by
  obtain ⟨⟨q', limits⟩, makes, same⟩ := Option.map_eq_some_iff.mp creates
  obtain rfl : q' = q := same
  cases call with
  | «open» pid name oflag attr =>
    rcases mqueueOpen_cases s pid name oflag attr with
      ⟨none, _⟩ | ⟨_, none, _⟩ | ⟨q, limits', makes', _, _, _, result⟩
    · rw [none] at makes
      cases makes
    · rw [none] at makes
      cases makes
    · obtain ⟨rfl, rfl⟩ := Prod.mk.inj (Option.some.inj (makes.symm.trans makes'))
      rw [← (Prod.mk.inj (Except.ok.inj done)).2, result]
      have made : ((s.create q' (strhash name) limits).openQueues q').hash = strhash name := by
        simp [Mqueues.create]
      rcases mqueueJoin_cases (s.create q' (strhash name) limits) pid oflag q' with
        ⟨_, joined⟩ | ⟨_, _, joined⟩ | ⟨p, _, _, joined⟩
      · rw [joined]
        exact made
      · rw [joined]
        exact made
      · rw [joined, Mqueues.setQueue_self]
        exact made
  | _ => cases makes

/-- Each queue in use has the hash of its name, and no other one in use has it too. -/
structure MqNames.Ok (n : MqNames) : Prop where
  safe : MqSafe n.sys
  hash : ∀ q, (n.sys.queues.openQueues q).id ≠ 0 → (n.sys.queues.openQueues q).hash = strhash (n.name q)
  distinct : ∀ q q', (n.sys.queues.openQueues q).id ≠ 0 → (n.sys.queues.openQueues q').id ≠ 0 →
    (n.sys.queues.openQueues q).hash = (n.sys.queues.openQueues q').hash → q = q'

theorem MqNames.Ok.boot : MqNames.Ok .boot where
  safe := .boot
  hash _ used := absurd rfl used
  distinct _ _ used := absurd rfl used

theorem MqNames.Ok.step {n n' : MqNames} {call : MqCall} (ok : n.Ok) (taken : n.Step call n') : n'.Ok := by
  obtain ⟨out, s', step, rfl⟩ := taken
  have entry q := (act_slotStep n.sys.queues s'.queues call out ok.safe.cursors step.2.1 q).entry
  constructor
  case safe => exact ok.safe.step step
  case hash =>
    intro q used
    simp only [MqNames.record] at used ⊢
    rcases entry q with ⟨creates, _⟩ | ⟨kept, gone | ⟨id, hash⟩⟩
    · rw [if_pos creates]
      exact creates_hash _ _ call out q step.2.1 creates
    · exact absurd gone used
    · rw [id] at used
      rw [if_neg kept, hash]
      exact ok.hash q used
  case distinct =>
    exact hashes_step (act_slotStep _ _ call out ok.safe.cursors step.2.1) ok.distinct

/-- Until the counter wraps round, the ids of the queues in use are positive and all different. -/
structure MqNames.Counted (n : MqNames) : Prop where
  count : n.sys.queues.mqueueCount.toNat = n.made
  range : ∀ q, (n.sys.queues.openQueues q).id ≠ 0 →
    0 < (n.sys.queues.openQueues q).id ∧ (n.sys.queues.openQueues q).id ≤ n.made
  distinct : ∀ q q', (n.sys.queues.openQueues q).id ≠ 0 →
    (n.sys.queues.openQueues q).id = (n.sys.queues.openQueues q').id → q = q'

theorem MqNames.Counted.boot : MqNames.Counted .boot where
  count := rfl
  range _ used := absurd rfl used
  distinct _ _ used := absurd rfl used

theorem MqNames.Counted.step {n n' : MqNames} {call : MqCall} (ok : n.Ok) (counted : n.Counted)
    (few : n'.made < 2 ^ 31) (taken : n.Step call n') : n'.Counted := by
  obtain ⟨out, s', step, rfl⟩ := taken
  have entry q := (act_slotStep n.sys.queues s'.queues call out ok.safe.cursors step.2.1 q).entry
  have count := act_count n.sys.queues s'.queues call out step.2.1
  have before := counted.count
  by_cases makes : call.creates n.sys.queues = none
  · -- Nothing is made: every slot keeps its id or is set free.
    have kept (q : Fin mqMaxOpen) : (s'.queues.openQueues q).id = 0 ∨
        (s'.queues.openQueues q).id = (n.sys.queues.openQueues q).id := by
      rcases entry q with ⟨creates, _⟩ | ⟨_, gone | ⟨id, _⟩⟩
      · rw [makes] at creates
        cases creates
      · exact .inl gone
      · exact .inr id
    have made : (n.record call s').made = n.made := if_pos makes
    refine ⟨?_, fun q used => ?_, fun q q' used same => ?_⟩
    · rw [made, ← before]
      exact congrArg BitVec.toNat (count.trans (if_pos makes))
    · rw [made]
      have id := (kept q).resolve_left used
      simp only [MqNames.record] at used ⊢
      rw [id] at used ⊢
      exact counted.range q used
    · simp only [MqNames.record] at used same
      have id := (kept q).resolve_left used
      have id' := (kept q').resolve_left fun gone => used (same.trans gone)
      rw [id] at used same
      exact counted.distinct q q' used (same.trans id')
  · have made : (n.record call s').made = n.made + 1 := if_neg makes
    obtain ⟨fresh, next⟩ := toMqd_succ n.sys.queues.mqueueCount (by omega)
    have apart (q : Fin mqMaxOpen) (used : (n.sys.queues.openQueues q).id ≠ 0) :
        (n.sys.queues.openQueues q).id ≠ toMqd (n.sys.queues.mqueueCount + 1) := by
      have := (counted.range q used).2
      omega
    refine ⟨?_, fun q used => ?_, fun q q' used same => ?_⟩
    · rw [made, ← before, ← next]
      exact congrArg BitVec.toNat (count.trans (if_neg makes))
    · rw [made]
      simp only [MqNames.record] at used ⊢
      rcases entry q with ⟨_, id, _⟩ | ⟨_, gone | ⟨id, _⟩⟩
      · omega
      · exact absurd gone used
      · rw [id] at used ⊢
        have := counted.range q used
        omega
    · simp only [MqNames.record] at used same
      rcases entry q with ⟨creates, id, _⟩ | ⟨_, gone | ⟨id, _⟩⟩
      · rcases entry q' with ⟨creates', _⟩ | ⟨_, gone' | ⟨id', _⟩⟩
        · exact Option.some.inj (creates.symm.trans creates')
        · exact absurd (same.trans gone') used
        · rw [same, id'] at used
          exact absurd (id'.symm.trans (same.symm.trans id)) (apart q' used)
      · exact absurd gone used
      · rw [id] at used same
        rcases entry q' with ⟨_, id', _⟩ | ⟨_, gone' | ⟨id', _⟩⟩
        · exact absurd (same.trans id') (apart q used)
        · exact absurd (same.trans gone') used
        · exact counted.distinct q q' used (same.trans id')

theorem MqNames.run_counted {n : MqNames} {allowed : MqNames → MqCall → Prop}
    (run : Run MqNames.Step allowed .boot n) : n.Ok ∧ (n.made < 2 ^ 31 → n.Counted) := by
  refine run.invariant (fun n => n.Ok ∧ (n.made < 2 ^ 31 → n.Counted)) ⟨.boot, fun _ => .boot⟩ ?_
  rintro n call n' ⟨ok, counted⟩ _ taken
  refine ⟨ok.step taken, fun few => ?_⟩
  have fewer : n.made ≤ n'.made := by
    obtain ⟨out, s', _, rfl⟩ := taken
    simp only [MqNames.record]
    split_ifs
    · exact le_refl _
    · exact Nat.le_succ _
  exact (counted (by omega)).step ok few taken

-- The names that lead to a queue are those with its hash.
theorem MqNames.Ok.found {n : MqNames} (ok : n.Ok) (q : Fin mqMaxOpen)
    (used : (n.sys.queues.openQueues q).id ≠ 0) (name : List Byte) :
    n.sys.queues.findHash (strhash name) = some q ↔ strhash name = strhash (n.name q) := by
  constructor
  · intro found
    rw [← ok.hash q used, (n.sys.queues.findHash_some _ q found).2]
  · intro same
    cases found : n.sys.queues.findHash (strhash name) with
    | none => exact absurd ((ok.hash q used).trans same.symm) (n.sys.queues.findHash_none _ found q used)
    | some q' =>
      obtain ⟨used', hash'⟩ := n.sys.queues.findHash_some _ q' found
      rw [ok.distinct q' q used' used (by rw [hash', same, ok.hash q used])]

theorem mqueueOpen_away (s : Mqueues) (pid : Int) (name : List Byte) (oflag : Flags) (attr : Option MqAttr)
    (q : Fin mqMaxOpen) (used : (s.openQueues q).id ≠ 0) (other : s.findHash (strhash name) ≠ some q) :
    (mqueueOpen s pid name oflag attr).2.openQueues q = s.openQueues q := by
  have joined (s' : Mqueues) (q' : Fin mqMaxOpen) (away : q ≠ q') :
      (mqueueJoin s' pid oflag (some q')).2.openQueues q = s'.openQueues q := by
    rcases mqueueJoin_cases s' pid oflag q' with ⟨_, result⟩ | ⟨_, _, result⟩ | ⟨p, _, _, result⟩
    · rw [result]
    · rw [result]
    · rw [result]
      exact s'.setQueue_other q' q _ away
  rcases mqueueOpen_cases s pid name oflag attr with
    ⟨_, _, err, _, result⟩ | ⟨q', _, found, _, result⟩ | ⟨q', limits, _, free, _, _, result⟩
  · rw [result]
  · rw [result, joined s q']
    rintro rfl
    exact other found
  · have away : q ≠ q' := by
      rintro rfl
      exact used free
    rw [result, joined _ q' away, create_other s q' q _ _ away]

theorem mqueueUnlink_away (s : Mqueues) (name : List Byte) (q : Fin mqMaxOpen)
    (other : s.findHash (strhash name) ≠ some q) : (mqueueUnlink s name).2.openQueues q = s.openQueues q := by
  unfold mqueueUnlink
  cases found : s.findHash (strhash name) with
  | none => rfl
  | some q' =>
    refine s.setQueue_other q' q _ ?_
    rintro rfl
    exact other found

-- Without O_CREAT a positive result is the id of the queue that the name leads to.
theorem mqueueOpen_plain (s : Mqueues) (pid : Int) (name : List Byte) (oflag : Flags) (attr : Option MqAttr)
    (plain : oflag &&& oCreat = 0) (positive : 0 < (mqueueOpen s pid name oflag attr).1) :
    ∃ q, s.findHash (strhash name) = some q ∧ (mqueueOpen s pid name oflag attr).1 = (s.openQueues q).id := by
  unfold mqueueOpen at positive ⊢
  cases found : s.findHash (strhash name) with
  | none =>
    simp only [found, plain, if_true, mqueueJoin] at positive
    exact absurd positive (by decide)
  | some q =>
    simp only [found, plain, ne_eq, not_true_eq_false, false_and, if_false] at positive ⊢
    refine ⟨q, rfl, ?_⟩
    rcases mqueueJoin_cases s pid oflag q with ⟨_, result⟩ | ⟨_, _, result⟩ | ⟨p, _, _, result⟩
    · rw [result] at positive
      simp [eNoent] at positive
    · rw [result] at positive
      simp [eAcces] at positive
    · rw [result]

/-- A queue in use is opened, and unlinked, under the names that have the hash of its own name only. -/
theorem mqueue_named (n : MqNames) (run : Run MqNames.Step (fun _ _ => True) .boot n) (q : Fin mqMaxOpen)
    (used : (n.sys.queues.openQueues q).id ≠ 0) (name : List Byte) :
    (∀ pid oflag attr, (mqueueOpen n.sys.queues pid name oflag attr).2.openQueues q ≠ n.sys.queues.openQueues q →
      strhash name = strhash (n.name q)) ∧
    ((mqueueUnlink n.sys.queues name).2.openQueues q ≠ n.sys.queues.openQueues q →
      strhash name = strhash (n.name q)) ∧
    (n.made < 2 ^ 31 → ∀ pid oflag attr, oflag &&& oCreat = 0 →
      (mqueueOpen n.sys.queues pid name oflag attr).1 = (n.sys.queues.openQueues q).id →
      strhash name = strhash (n.name q)) := by
  obtain ⟨ok, counted⟩ := MqNames.run_counted run
  have leads := ok.found q used name
  refine ⟨fun pid oflag attr changed => ?_, fun changed => ?_, fun few pid oflag attr plain returns => ?_⟩
  · by_contra other
    exact changed (mqueueOpen_away _ pid name oflag attr q used fun found => other (leads.mp found))
  · by_contra other
    exact changed (mqueueUnlink_away _ name q fun found => other (leads.mp found))
  · have positive := ((counted few).range q used).1
    rw [← returns] at positive
    obtain ⟨q', found, id⟩ := mqueueOpen_plain _ pid name oflag attr plain positive
    rw [(counted few).distinct q q' used (returns.symm.trans id)] at leads
    rw [(counted few).distinct q q' used (returns.symm.trans id)]
    exact leads.mp found

-- "!0IC=VloaY" and "QvXtM>@Fp%", which have the hash 0.
def firstName : List Byte := [0x21, 0x30, 0x49, 0x43, 0x3d, 0x56, 0x6c, 0x6f, 0x61, 0x59]

def secondName : List Byte := [0x51, 0x76, 0x58, 0x74, 0x4d, 0x3e, 0x40, 0x46, 0x70, 0x25]

-- One task makes a queue under the first name.
theorem firstName_run (allowed : MqNames → MqCall → Prop)
    (fine : ∀ n, allowed n (.open 1 firstName oCreat none)) :
    ∃ n, Run MqNames.Step allowed .boot n ∧ (n.sys.queues.openQueues 0).id = 1 ∧ n.name 0 = firstName ∧
      n.made = 1 ∧ (mqueueOpen n.sys.queues 2 secondName oRdwr none).1 = 1 := by
  have calls : (playCalls MqNames.sys (fun n call _ s' => n.record call s') .boot
      [.open 1 firstName oCreat none]).map (fun n => ((n.sys.queues.openQueues 0).id, n.name 0, n.made,
        (mqueueOpen n.sys.queues 2 secondName oRdwr none).1)) = some (1, firstName, 1, 1) := by decide +kernel
  obtain ⟨n, played, same⟩ := Option.map_eq_some_iff.mp calls
  simp only [Prod.mk.injEq] at same
  refine ⟨n, ?_, same⟩
  refine playCalls_run MqNames.sys (fun n call _ s' => n.record call s') allowed (fun _ _ _ _ => rfl) .boot .boot n
    _ .start rfl (by simp) ?_ played
  intro n' call member
  obtain rfl := List.mem_singleton.mp member
  exact fine n'

theorem mqueue_named_first : ∃ n : MqNames, ∀ pid oflag attr, oflag &&& oCreat = 0 →
    (mqueueOpen n.sys.queues pid secondName oflag attr).1 = 1 → strhash secondName = strhash firstName := by
  obtain ⟨n, run, id, name, made, _⟩ := firstName_run (fun _ _ => True) fun _ => trivial
  have named := (mqueue_named n run 0 (by rw [id]; decide) secondName).2.2 (by rw [made]; decide)
  rw [id, name] at named
  exact ⟨n, named⟩

-- A task that opens the second name gets the queue of the first.
theorem secondName_merged :
    ¬ ∀ n : MqNames, Run MqNames.Step (fun _ call => 0 ∉ call.name) .boot n → ∀ q,
      (n.sys.queues.openQueues q).id ≠ 0 → ∀ name : List Byte, 0 ∉ name → ∀ pid oflag attr, oflag &&& oCreat = 0 →
        (mqueueOpen n.sys.queues pid name oflag attr).1 = (n.sys.queues.openQueues q).id → name = n.name q := by
  intro claim
  obtain ⟨n, run, id, name, _, opened⟩ := firstName_run (fun _ call => 0 ∉ call.name) fun _ => by decide
  have same := claim n run 0 (by rw [id]; decide) secondName (by decide) 2 oRdwr none (by decide)
    (by rw [id]; exact opened)
  rw [name] at same
  exact absurd same (by decide)

end Anthill
