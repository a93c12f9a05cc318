import Anthill.MqueueDelivery
import Mathlib.Algebra.Order.Group.Multiset
import Mathlib.Data.Fintype.Basic

set_option autoImplicit false

namespace Anthill

/-- The tasks subscribed to a queue, as often as they are. -/
def subscribed (m : Mqueue) : Multiset Int :=
  ((Finset.univ : Finset (Fin mqMaxSubscribers)).val.map fun p => (m.subs p).pid).filter (0 < ·)

theorem subscribed_congr (m m' : Mqueue) (same : ∀ p, (m'.subs p).pid = (m.subs p).pid) :
    subscribed m' = subscribed m := by
  simp only [subscribed, same]

theorem mem_subscribed (m : Mqueue) (pid : Int) :
    pid ∈ subscribed m ↔ 0 < pid ∧ ∃ p, (m.subs p).pid = pid := by
  simp only [subscribed, Multiset.mem_filter, Multiset.mem_map, Finset.mem_val, Finset.mem_univ, true_and]
  exact and_comm

theorem subscribed_eq_zero (m : Mqueue) : subscribed m = 0 ↔ findSubscriber m 0 = none := by
  rw [findSubscriber, Slots.first_none, Multiset.eq_zero_iff_forall_notMem]
  simp only [mem_subscribed, not_and, not_exists, ne_eq, not_true_eq_false, false_and, true_and,
    false_or, decide_eq_false_iff_not]
  constructor
  · exact fun none p positive => none _ positive p rfl
  · rintro none pid positive p rfl
    exact none p positive

theorem findSubscriber_some (m : Mqueue) (pid : Int) (positive : 0 < pid) (p : Fin mqMaxSubscribers)
    (found : findSubscriber m pid = some p) : (m.subs p).pid = pid := by
  have hit := Slots.first_some _ p found
  simp only [decide_eq_true_eq] at hit
  omega

theorem findSubscriber_none (m : Mqueue) (pid : Int) (positive : 0 < pid) :
    findSubscriber m pid = none ↔ pid ∉ subscribed m := by
  rw [findSubscriber, Slots.first_none, mem_subscribed]
  simp only [decide_eq_false_iff_not, not_and, not_exists]
  constructor
  · exact fun none _ p here => none p (.inl ⟨by omega, here⟩)
  · rintro none p (⟨_, here⟩ | ⟨zero, _⟩)
    · exact none positive p here
    · omega

-- The places of a queue, with one of them taken out.
theorem places_erase {A : Type} (f : Fin mqMaxSubscribers → A) (p : Fin mqMaxSubscribers) :
    (Finset.univ : Finset (Fin mqMaxSubscribers)).val.map f =
      f p ::ₘ ((Finset.univ : Finset (Fin mqMaxSubscribers)).erase p).val.map f := by
  rw [← Multiset.map_cons, Finset.erase_val, Multiset.cons_erase (Finset.mem_univ p)]

theorem subscribed_setSub (m : Mqueue) (p : Fin mqMaxSubscribers) (sub : MqTask) :
    (if 0 < (m.subs p).pid then {(m.subs p).pid} else 0) + subscribed (m.setSub p sub) =
      (if 0 < sub.pid then {sub.pid} else 0) + subscribed m := by
  have rest : ((Finset.univ : Finset (Fin mqMaxSubscribers)).erase p).val.map
      (fun i => ((m.setSub p sub).subs i).pid) =
      ((Finset.univ : Finset (Fin mqMaxSubscribers)).erase p).val.map fun i => (m.subs i).pid := by
    refine Multiset.map_congr rfl fun i member => ?_
    have away : i ≠ p := Finset.ne_of_mem_erase (Finset.mem_val.mp member)
    simp only [Mqueue.setSub, Function.update_of_ne away]
  have here : ((m.setSub p sub).subs p).pid = sub.pid := by simp [Mqueue.setSub]
  rw [subscribed, subscribed, places_erase _ p, places_erase (fun p => (m.subs p).pid) p, rest, here]
  simp only [Multiset.filter_cons]
  exact add_left_comm _ _ _

/-- The queue after mqueue_close by `pid`. -/
def closeQueue (m : Mqueue) (pid : Int) : Mqueue :=
  let m := (unsubscribe m pid).2
  if m.isOpen = false ∧ findSubscriber m 0 = none then destroy m else m

theorem mqueueClose_eq (s : Mqueues) (pid mqdes : Int) :
    (mqueueClose s pid mqdes).2 =
      match s.find mqdes with
      | none => s
      | some q => s.setQueue q (closeQueue (s.openQueues q) pid) := by
  unfold mqueueClose closeQueue
  cases s.find mqdes with
  | none => rfl
  | some q =>
    simp only
    split_ifs <;> rfl

theorem unsubscribe_subscribed (m : Mqueue) (pid : Int) (positive : 0 < pid) :
    subscribed (unsubscribe m pid).2 = (subscribed m).erase pid := by
  unfold unsubscribe
  cases found : findSubscriber m pid with
  | none => exact (Multiset.erase_of_notMem ((findSubscriber_none m pid positive).mp found)).symm
  | some p =>
    have here := findSubscriber_some m pid positive p found
    have moved := subscribed_setSub m p ⟨-1, 0⟩
    rw [here, if_pos positive, if_neg (by decide), zero_add, Multiset.singleton_add] at moved
    rw [← moved, Multiset.erase_cons_head]

theorem destroy_subscribed (m : Mqueue) : subscribed (destroy m) = subscribed m := by
  apply subscribed_congr
  intro p
  simp only [destroy]
  split_ifs <;> rfl

theorem destroy_fields (m : Mqueue) :
    (destroy m).isOpen = false ∧ (∀ p, (destroy m).subs p = m.subs p) ∧
      ((subscribed m = 0 ∧ (destroy m).id = 0) ∨
        (subscribed m ≠ 0 ∧ (destroy m).id = m.id ∧ (destroy m).hash = m.hash)) := by
  have same : findSubscriber { m with isOpen := false } 0 = none ↔ subscribed m = 0 :=
    (subscribed_eq_zero { m with isOpen := false }).symm
  simp only [destroy]
  cases found : findSubscriber { m with isOpen := false } 0 with
  | none =>
    simp only [Option.isSome_none, Bool.false_eq_true, if_false]
    exact ⟨trivial, fun _ => trivial, .inl ⟨same.mp found, trivial⟩⟩
  | some p =>
    simp only [Option.isSome_some, if_true]
    refine ⟨trivial, fun _ => trivial, .inr ⟨fun zero => ?_, trivial, trivial⟩⟩
    rw [same.mpr zero] at found
    cases found

/-- A slot and what is known of the queue in it: whether there has been one, whether it has been
unlinked, and the opens of it that no close has matched. -/
structure SlotOk (m : Mqueue) (hosted unlinked : Bool) (opens : Multiset Int) : Prop where
  pids : ∀ p, (m.subs p).pid = 0 ∨ (m.subs p).pid = -1 ∨ 0 < (m.subs p).pid
  matched : subscribed m = opens
  free : m.id = 0 → m.isOpen = false ∧ opens = 0 ∧ (hosted = true → unlinked = true)
  used : m.id ≠ 0 → hosted = true ∧ unlinked = !m.isOpen ∧ (m.isOpen = false → opens ≠ 0)

section SlotOk

variable {m m' : Mqueue} {hosted unlinked : Bool} {opens : Multiset Int}
  (ok : SlotOk m hosted unlinked opens)

include ok

theorem SlotOk.same (same : SameQueue m m') : SlotOk m' hosted unlinked opens := by
  refine ⟨fun p => ?_, ?_, ?_, ?_⟩
  · rw [same.pids]
    exact ok.pids p
  · rw [subscribed_congr m m' same.pids]
    exact ok.matched
  · rw [same.id, same.isOpen]
    exact ok.free
  · rw [same.id, same.isOpen]
    exact ok.used

theorem SlotOk.join (p : Fin mqMaxSubscribers) (pid : Int) (flags : Flags) (isOpen : m.isOpen = true)
    (empty : (m.subs p).pid = 0) (positive : 0 < pid) :
    SlotOk (m.setSub p ⟨pid, flags⟩) hosted unlinked (pid ::ₘ opens) := by
  refine ⟨fun i => ?_, ?_, fun zero => ?_, fun nonzero => ?_⟩
  · by_cases here : i = p
    · subst here
      simp [Mqueue.setSub, positive]
    · simpa [Mqueue.setSub, here] using ok.pids i
  · have moved := subscribed_setSub m p ⟨pid, flags⟩
    rw [empty, if_neg (by decide), zero_add, if_pos positive, Multiset.singleton_add, ok.matched] at moved
    exact moved
  · rw [(ok.free zero).1] at isOpen
    cases isOpen
  · obtain ⟨there, linked, _⟩ := ok.used nonzero
    refine ⟨there, linked, fun closed => ?_⟩
    rw [show (m.setSub p ⟨pid, flags⟩).isOpen = m.isOpen from rfl, isOpen] at closed
    cases closed

theorem SlotOk.unsubscribe (pid : Int) (positive : 0 < pid) :
    (∀ p, ((Anthill.unsubscribe m pid).2.subs p).pid = 0 ∨ ((Anthill.unsubscribe m pid).2.subs p).pid = -1 ∨
        0 < ((Anthill.unsubscribe m pid).2.subs p).pid) ∧
      subscribed (Anthill.unsubscribe m pid).2 = opens.erase pid := by
  refine ⟨fun p => ?_, by rw [unsubscribe_subscribed m pid positive, ok.matched]⟩
  simp only [Anthill.unsubscribe]
  cases findSubscriber m pid with
  | none => exact ok.pids p
  | some i =>
    by_cases here : p = i
    · subst here
      simp [Mqueue.setSub]
    · simpa [Mqueue.setSub, here] using ok.pids p

theorem SlotOk.close (pid : Int) (positive : 0 < pid) :
    SlotOk (closeQueue m pid) hosted unlinked (opens.erase pid) := by
  obtain ⟨pids, left⟩ := ok.unsubscribe pid positive
  have id : (Anthill.unsubscribe m pid).2.id = m.id := by
    unfold Anthill.unsubscribe
    cases findSubscriber m pid <;> rfl
  have isOpen : (Anthill.unsubscribe m pid).2.isOpen = m.isOpen := by
    unfold Anthill.unsubscribe
    cases findSubscriber m pid <;> rfl
  simp only [closeQueue, ← subscribed_eq_zero, isOpen, left]
  split_ifs with last
  · -- The last subscriber of an unlinked queue has gone.
    obtain ⟨closed, places, gone | ⟨some, _⟩⟩ := destroy_fields (Anthill.unsubscribe m pid).2
    · refine ⟨fun p => by rw [places]; exact pids p, by rw [destroy_subscribed, left], fun _ => ?_,
        fun nonzero => absurd gone.2 nonzero⟩
      refine ⟨closed, last.2, fun there => ?_⟩
      by_cases zero : m.id = 0
      · exact (ok.free zero).2.2 there
      · rw [(ok.used zero).2.1, last.1]
        rfl
    · rw [left] at some
      exact absurd last.2 some
  · refine ⟨pids, left, fun zero => ?_, fun nonzero => ?_⟩
    · rw [id] at zero
      obtain ⟨closed, none, gone⟩ := ok.free zero
      refine ⟨by rw [isOpen]; exact closed, ?_, gone⟩
      rw [none]
      exact Multiset.erase_zero pid
    · rw [id] at nonzero
      obtain ⟨there, linked, _⟩ := ok.used nonzero
      rw [isOpen]
      exact ⟨there, linked, fun closed empty => last ⟨closed, empty⟩⟩

theorem SlotOk.unlink (nonzero : m.id ≠ 0) : SlotOk (destroy m) hosted true opens := by
  obtain ⟨closed, places, cases⟩ := destroy_fields m
  rw [ok.matched] at cases
  refine ⟨fun p => by rw [places]; exact ok.pids p, by rw [destroy_subscribed, ok.matched], fun zero => ?_,
    fun used => ?_⟩
  · rcases cases with ⟨none, _⟩ | ⟨_, kept, _⟩
    · exact ⟨closed, none, fun _ => rfl⟩
    · exact absurd (kept ▸ zero) nonzero
  · rcases cases with ⟨_, gone⟩ | ⟨some, _⟩
    · exact absurd gone used
    · rw [closed]
      exact ⟨(ok.used nonzero).1, rfl, fun _ => some⟩

theorem SlotOk.create (s : Mqueues) (q : Fin mqMaxOpen) (hash : Word) (limits : Int × Int)
    (here : s.openQueues q = m) (free : m.id = 0) (fresh : toMqd (s.mqueueCount + 1) ≠ 0) :
    SlotOk ((s.create q hash limits).openQueues q) true false 0 := by
  simp only [Mqueues.create, Mqueues.setQueue_self, here]
  refine ⟨ok.pids, ?_, fun zero => absurd zero fresh, fun _ => ⟨rfl, rfl, fun closed => by cases closed⟩⟩
  exact ok.matched.trans (ok.free free).2.1

end SlotOk

def MqCall.closes (s : Mqueues) : MqCall → Option (Fin mqMaxOpen)
  | .close _ mqdes => s.find mqdes
  | _ => none

def MqCall.unlinks (s : Mqueues) : MqCall → Option (Fin mqMaxOpen)
  | .unlink _ name => s.findHash (strhash name)
  | _ => none

-- Whether a call is one of mqueue_open, mqueue_close and mqueue_unlink.
def MqCall.registry : MqCall → Nat
  | .open _ _ _ _ | .close _ _ | .unlink _ _ => 1
  | _ => 0

/-- A run with what has become of its queues: how many calls of those three there were, the ids given
to queues, the slots that have held one, whether the last queue of a slot has been unlinked, and which of its opens no
close has matched. -/
structure MqLife where
  sys : MqSys
  calls : Nat
  ids : List Int
  hosted : Fin mqMaxOpen → Bool
  unlinked : Fin mqMaxOpen → Bool
  opens : Fin mqMaxOpen → Multiset Int

def MqLife.boot : MqLife := ⟨.boot, 0, [], fun _ => false, fun _ => false, fun _ => 0⟩

def MqLife.record (l : MqLife) (call : MqCall) (s' : MqSys) : MqLife where
  sys := s'
  calls := l.calls + call.registry
  ids :=
    match call.creates l.sys.queues with
    | some _ => toMqd (l.sys.queues.mqueueCount + 1) :: l.ids
    | none => l.ids
  hosted q := l.hosted q || (call.creates l.sys.queues).map Prod.fst = some q
  unlinked q :=
    if (call.creates l.sys.queues).map Prod.fst = some q then false
    else l.unlinked q || call.unlinks l.sys.queues = some q
  opens q :=
    let old := if (call.creates l.sys.queues).map Prod.fst = some q then 0 else l.opens q
    if call.joins l.sys.queues = some q then call.pid ::ₘ old
    else if call.closes l.sys.queues = some q then old.erase call.pid
    else old

def MqLife.Step (l : MqLife) (call : MqCall) (l' : MqLife) : Prop :=
  ∃ out s', l.sys.Step call out s' ∧ l' = l.record call s'

def MqLife.SlotOk (l : MqLife) (q : Fin mqMaxOpen) : Prop :=
  Anthill.SlotOk (l.sys.queues.openQueues q) (l.hosted q) (l.unlinked q) (l.opens q)

-- Sends and receives leave the registry of the queues alone.
theorem act_same (s s' : Mqueues) (call : MqCall) (out : MqOutcome)
    (cursors : ∀ q, Cursors (s.openQueues q)) (done : call.act s = .ok (out, s'))
    (message : (∃ wait, call.enters s = some wait) ∨ s' = s) (q : Fin mqMaxOpen) :
    SameQueue (s.openQueues q) (s'.openQueues q) := by
  rcases message with ⟨wait, enters⟩ | rfl
  · rcases act_enters s call with ⟨wait', _, same⟩ | ⟨none, _⟩ | ⟨none, _⟩
    · rw [same] at done
      exact (round_law s wait' cursors out s' done).same q
    all_goals
      rw [none] at enters
      cases enters
  · exact .refl _

/-- What a call does to one slot: nothing but to its messages and flags, or one of the four operations
on the registry. -/
inductive SlotStep (s : Mqueues) (call : MqCall) (s' : Mqueues) (q : Fin mqMaxOpen) : Prop where
  | same (creates : (call.creates s).map Prod.fst ≠ some q) (joins : call.joins s ≠ some q)
      (closes : call.closes s ≠ some q) (unlinks : call.unlinks s ≠ some q)
      (kept : SameQueue (s.openQueues q) (s'.openQueues q))
  | join (p : Fin mqMaxSubscribers) (flags : Flags) (creates : (call.creates s).map Prod.fst ≠ some q)
      (joins : call.joins s = some q) (unlinks : call.unlinks s ≠ some q)
      (isOpen : (s.openQueues q).isOpen = true) (empty : ((s.openQueues q).subs p).pid = 0)
      (queue : s'.openQueues q = (s.openQueues q).setSub p ⟨call.pid, flags⟩)
  | create (hash : Word) (limits : Int × Int) (creates : (call.creates s).map Prod.fst = some q)
      (free : (s.openQueues q).id = 0) (absent : s.findHash hash = none)
      (count : s'.mqueueCount = s.mqueueCount + 1) (unlinks : call.unlinks s ≠ some q)
      (queue : (call.joins s ≠ some q ∧ call.closes s ≠ some q ∧
          s'.openQueues q = (s.create q hash limits).openQueues q) ∨
        ∃ p flags, call.joins s = some q ∧ (((s.create q hash limits).openQueues q).subs p).pid = 0 ∧
          s'.openQueues q = ((s.create q hash limits).openQueues q).setSub p ⟨call.pid, flags⟩)
  | close (creates : (call.creates s).map Prod.fst ≠ some q) (joins : call.joins s ≠ some q)
      (closes : call.closes s = some q) (unlinks : call.unlinks s ≠ some q)
      (queue : s'.openQueues q = closeQueue (s.openQueues q) call.pid)
  | unlink (creates : (call.creates s).map Prod.fst ≠ some q) (joins : call.joins s ≠ some q)
      (closes : call.closes s ≠ some q) (unlinks : call.unlinks s = some q)
      (nonzero : (s.openQueues q).id ≠ 0) (queue : s'.openQueues q = destroy (s.openQueues q))

theorem slotStep_open (s : Mqueues) (pid : Int) (name : List Byte) (oflag : Flags) (attr : Option MqAttr)
    (q : Fin mqMaxOpen) :
    SlotStep s (.open pid name oflag attr) (mqueueOpen s pid name oflag attr).2 q := by
  have closes : (MqCall.open pid name oflag attr).closes s ≠ some q := by simp [MqCall.closes]
  have unlinks : (MqCall.open pid name oflag attr).unlinks s ≠ some q := by simp [MqCall.unlinks]
  rcases mqueueOpen_cases s pid name oflag attr with
    ⟨makes, joins, err, _, result⟩ | ⟨q', makes, found, inclusive, result⟩ |
      ⟨q', limits, makes, free, absent, fine, result⟩
  · rw [result]
    exact .same (by simp [makes]) (by simp [joins]) closes unlinks (.refl _)
  · have creates : ((MqCall.open pid name oflag attr).creates s).map Prod.fst ≠ some q := by simp [makes]
    rcases mqueueJoin_cases s pid oflag q' with
      ⟨closed, joined⟩ | ⟨_, full, joined⟩ | ⟨p, isOpen, empty, joined⟩
    · have joins : (MqCall.open pid name oflag attr).joins s = none := by
        simp only [MqCall.joins, found, closed, true_or, or_true, if_true]
      rw [result, joined]
      exact .same creates (by simp [joins]) closes unlinks (.refl _)
    · have joins : (MqCall.open pid name oflag attr).joins s = none := by
        simp only [MqCall.joins, found]
        exact if_pos (.inr (.inr full))
      rw [result, joined]
      exact .same creates (by simp [joins]) closes unlinks (.refl _)
    · have joins : (MqCall.open pid name oflag attr).joins s = some q' := by
        simp only [MqCall.joins, found]
        refine if_neg ?_
        rintro (exclusive | closed | full)
        · exact inclusive exclusive
        · rw [isOpen] at closed
          cases closed
        · exact full p empty
      rw [result, joined]
      by_cases here : q = q'
      · subst here
        exact .join p oflag creates joins unlinks isOpen empty (s.setQueue_self q _)
      · refine .same creates ?_ closes unlinks ?_
        · rw [joins]
          exact fun same => here (Option.some.inj same).symm
        · rw [s.setQueue_other q' q _ here]
          exact .refl _
  · have count (m : Mqueue) (r : Int) : (r, (s.create q' (strhash name) limits).setQueue q' m).2.mqueueCount
        = s.mqueueCount + 1 := rfl
    rw [result]
    rcases mqueueJoin_cases (s.create q' (strhash name) limits) pid oflag q' with
      ⟨closed, _⟩ | ⟨_, full, joined⟩ | ⟨p, _, empty, joined⟩
    · simp [Mqueues.create] at closed
    · have same (p : Fin mqMaxSubscribers) : ((s.openQueues q').subs p).pid ≠ 0 := by
        simpa [Mqueues.create] using full p
      have joins : (MqCall.open pid name oflag attr).joins s = none := by
        simp only [MqCall.joins, absent, makes]
        exact if_pos same
      rw [joined]
      by_cases here : q = q'
      · subst here
        exact .create (strhash name) limits (by simp [makes]) free absent rfl unlinks
          (.inl ⟨by simp [joins], closes, rfl⟩)
      · refine .same ?_ (by simp [joins]) closes unlinks ?_
        · simpa [makes] using Ne.symm here
        · rw [create_other s q' q _ _ here]
          exact .refl _
    · have joins : (MqCall.open pid name oflag attr).joins s = some q' := by
        simp only [MqCall.joins, absent, makes]
        refine if_neg fun full => full p ?_
        simpa [Mqueues.create] using empty
      rw [joined]
      by_cases here : q = q'
      · subst here
        exact .create (strhash name) limits (by simp [makes]) free absent rfl unlinks
          (.inr ⟨p, oflag, joins, empty, Mqueues.setQueue_self _ q _⟩)
      · refine .same ?_ ?_ closes unlinks ?_
        · simpa [makes] using Ne.symm here
        · rw [joins]
          exact fun same => here (Option.some.inj same).symm
        · rw [Mqueues.setQueue_other _ q' q _ here, create_other s q' q _ _ here]
          exact .refl _

theorem slotStep_close (s : Mqueues) (pid mqdes : Int) (q : Fin mqMaxOpen) :
    SlotStep s (.close pid mqdes) (mqueueClose s pid mqdes).2 q := by
  rw [mqueueClose_eq]
  have creates : ((MqCall.close pid mqdes).creates s).map Prod.fst ≠ some q := by simp [MqCall.creates]
  have joins : (MqCall.close pid mqdes).joins s ≠ some q := by simp [MqCall.joins]
  have unlinks : (MqCall.close pid mqdes).unlinks s ≠ some q := by simp [MqCall.unlinks]
  cases found : s.find mqdes with
  | none => exact .same creates joins (by simp [MqCall.closes, found]) unlinks (.refl _)
  | some q' =>
    by_cases here : q = q'
    · subst here
      exact .close creates joins found unlinks (s.setQueue_self q _)
    · refine .same creates joins ?_ unlinks ?_
      · simpa [MqCall.closes, found] using Ne.symm here
      · simp only [s.setQueue_other q' q _ here]
        exact .refl _

theorem slotStep_unlink (s : Mqueues) (pid : Int) (name : List Byte) (q : Fin mqMaxOpen) :
    SlotStep s (.unlink pid name) (mqueueUnlink s name).2 q := by
  have creates : ((MqCall.unlink pid name).creates s).map Prod.fst ≠ some q := by simp [MqCall.creates]
  have joins : (MqCall.unlink pid name).joins s ≠ some q := by simp [MqCall.joins]
  have closes : (MqCall.unlink pid name).closes s ≠ some q := by simp [MqCall.closes]
  unfold mqueueUnlink
  cases found : s.findHash (strhash name) with
  | none => exact .same creates joins closes (by simp [MqCall.unlinks, found]) (.refl _)
  | some q' =>
    by_cases here : q = q'
    · subst here
      exact .unlink creates joins closes found (s.findHash_some _ q found).1 (s.setQueue_self q _)
    · refine .same creates joins closes ?_ ?_
      · simpa [MqCall.unlinks, found] using Ne.symm here
      · simp only [s.setQueue_other q' q _ here]
        exact .refl _

theorem act_slotStep (s s' : Mqueues) (call : MqCall) (out : MqOutcome)
    (cursors : ∀ q, Cursors (s.openQueues q)) (done : call.act s = .ok (out, s')) (q : Fin mqMaxOpen) :
    SlotStep s call s' q := by
  cases call with
  | «open» pid name oflag attr =>
    rw [← (Prod.mk.inj (Except.ok.inj done)).2]
    exact slotStep_open s pid name oflag attr q
  | close pid mqdes =>
    rw [← (Prod.mk.inj (Except.ok.inj done)).2]
    exact slotStep_close s pid mqdes q
  | unlink pid name =>
    rw [← (Prod.mk.inj (Except.ok.inj done)).2]
    exact slotStep_unlink s pid name q
  | send | receive | retry =>
    refine .same (by simp [MqCall.creates]) (by simp [MqCall.joins]) (by simp [MqCall.closes])
      (by simp [MqCall.unlinks]) (act_same s s' _ out cursors done ?_ q)
    rcases act_enters s _ with ⟨wait, enters, _⟩ | ⟨_, _, err, _, _, refused⟩ |
      ⟨_, ⟨_, _, _, _, other⟩ | ⟨_, _, other⟩ | ⟨_, _, other⟩⟩
    · exact .inl ⟨wait, enters⟩
    · rw [refused] at done
      exact .inr (Prod.mk.inj (Except.ok.inj done)).2.symm
    all_goals cases other

/-- The id that the call would give a new queue is not the mark of a free slot. -/
def MqCall.FreshId (s : Mqueues) (call : MqCall) : Prop :=
  call.creates s ≠ none → toMqd (s.mqueueCount + 1) ≠ 0

structure MqLife.Ok (l : MqLife) : Prop where
  safe : MqSafe l.sys
  slots : ∀ q, l.SlotOk q

theorem MqLife.Ok.boot : MqLife.Ok .boot where
  safe := .boot
  slots q := by
    refine ⟨fun _ => .inl rfl, ?_, fun _ => ⟨rfl, rfl, fun there => ?_⟩, fun nonzero => absurd rfl nonzero⟩
    · exact (subscribed_eq_zero Mqueue.unused).mpr (by decide)
    · cases there

theorem MqLife.Ok.step {l l' : MqLife} {call : MqCall} (ok : l.Ok) (positive : 0 < call.pid)
    (fresh : call.FreshId l.sys.queues) (taken : l.Step call l') : l'.Ok := by
  obtain ⟨out, s', taken, rfl⟩ := taken
  refine ⟨ok.safe.step taken, fun q => ?_⟩
  have slot := ok.slots q
  simp only [MqLife.SlotOk, MqLife.record]
  cases act_slotStep l.sys.queues s'.queues call out ok.safe.cursors taken.2.1 q with
  | same creates joins closes unlinks kept =>
    simpa [creates, joins, closes, unlinks] using slot.same kept
  | join p flags creates joins unlinks isOpen empty queue =>
    rw [queue]
    simpa [creates, joins, unlinks] using slot.join p call.pid flags isOpen empty positive
  | create hash limits creates free absent count unlinks queue =>
    have new : call.creates l.sys.queues ≠ none := by
      intro none
      rw [none] at creates
      cases creates
    have made := slot.create l.sys.queues q hash limits rfl free (fresh new)
    rcases queue with ⟨joins, closes, same⟩ | ⟨p, flags, joins, empty, same⟩
    · rw [same]
      simpa [creates, joins, closes] using made
    · rw [same]
      have isOpen : ((l.sys.queues.create q hash limits).openQueues q).isOpen = true := by
        simp [Mqueues.create]
      simpa [creates, joins] using made.join p call.pid flags isOpen empty positive
  | close creates joins closes unlinks queue =>
    rw [queue]
    simpa [creates, joins, closes, unlinks] using slot.close call.pid positive
  | unlink creates joins closes unlinks nonzero queue =>
    rw [queue]
    simpa [creates, joins, closes, unlinks] using slot.unlink nonzero

-- At most as many subscribers as places, and as many only if every place has one.
theorem subscribed_card (m : Mqueue) : (subscribed m).card ≤ mqMaxSubscribers ∧
    ((subscribed m).card = mqMaxSubscribers ↔ ∀ p, 0 < (m.subs p).pid) := by
  have size : ((Finset.univ : Finset (Fin mqMaxSubscribers)).val.map fun p => (m.subs p).pid).card =
      mqMaxSubscribers := by simp
  have bound := Multiset.card_le_card (Multiset.filter_le (0 < ·)
    ((Finset.univ : Finset (Fin mqMaxSubscribers)).val.map fun p => (m.subs p).pid))
  refine ⟨bound.trans size.le, fun whole p => ?_, fun all => ?_⟩
  · have same := Multiset.eq_of_le_of_card_le (Multiset.filter_le (0 < ·)
      ((Finset.univ : Finset (Fin mqMaxSubscribers)).val.map fun p => (m.subs p).pid))
      (by rw [size]; exact whole.ge)
    have member : (m.subs p).pid ∈ subscribed m := by
      rw [subscribed, same]
      exact Multiset.mem_map_of_mem _ (Finset.mem_univ_val p)
    exact ((mem_subscribed m _).mp member).1
  · rw [subscribed, Multiset.filter_eq_self.mpr ?_, size]
    intro pid member
    obtain ⟨p, _, rfl⟩ := Multiset.mem_map.mp member
    exact all p

theorem subscribed_card_filter (m : Mqueue) :
    (subscribed m).card = (Finset.univ.filter fun p => 0 < (m.subs p).pid).card := by
  rw [subscribed, Multiset.filter_map, Multiset.card_map]
  rfl

-- The places without a subscriber are those never used, unless one has been released.
theorem places_usable (m : Mqueue)
    (pids : ∀ p, (m.subs p).pid = 0 ∨ (m.subs p).pid = -1 ∨ 0 < (m.subs p).pid) :
    (Finset.univ.filter fun p => (m.subs p).pid = 0).card + (subscribed m).card = mqMaxSubscribers ↔
      ∀ p, (m.subs p).pid ≠ -1 := by
  have whole := Finset.card_filter_add_card_filter_not (s := Finset.univ) fun p => 0 < (m.subs p).pid
  rw [Finset.card_univ, Fintype.card_fin, ← subscribed_card_filter] at whole
  have within : (Finset.univ.filter fun p => (m.subs p).pid = 0) ⊆
      Finset.univ.filter fun p => ¬ 0 < (m.subs p).pid := by
    intro p
    simp only [Finset.mem_filter, Finset.mem_univ, true_and]
    omega
  constructor
  · intro all p released
    have same := Finset.eq_of_subset_of_card_le within (by omega)
    have member : p ∈ Finset.univ.filter fun p => (m.subs p).pid = 0 := by
      rw [same]
      simp [released]
    simp [released] at member
  · intro unreleased
    have same : (Finset.univ.filter fun p => (m.subs p).pid = 0) =
        Finset.univ.filter fun p => ¬ 0 < (m.subs p).pid := by
      refine Finset.filter_congr fun p _ => ?_
      have := unreleased p
      rcases pids p with zero | gone | held <;> omega
    rw [same]
    omega

-- An open of an open queue, without O_CREAT, fails exactly when no place is free.
theorem open_refused (s : Mqueues) (pid : Int) (name : List Byte) (oflag : Flags) (attr : Option MqAttr)
    (q : Fin mqMaxOpen) (found : s.findHash (strhash name) = some q)
    (isOpen : (s.openQueues q).isOpen = true) (plain : oflag &&& oCreat = 0) (positive : 0 < pid) :
    mqueueOpen s pid name oflag attr = (-eAcces, s) ↔ ∀ p, ((s.openQueues q).subs p).pid ≠ 0 := by
  have joins : mqueueOpen s pid name oflag attr = mqueueJoin s pid oflag (some q) := by
    simp only [mqueueOpen, found, plain, ne_eq, not_true_eq_false, false_and, if_false]
  rw [joins]
  rcases mqueueJoin_cases s pid oflag q with
    ⟨closed, _⟩ | ⟨_, full, joined⟩ | ⟨p, _, empty, joined⟩
  · rw [isOpen] at closed
    cases closed
  · rw [joined]
    exact ⟨fun _ => full, fun _ => rfl⟩
  · rw [joined]
    refine ⟨fun same => ?_, fun full => absurd empty (full p)⟩
    -- The place that has been taken shows that the state is another one.
    have place := congrArg (fun r : Int × Mqueues => ((r.2.openQueues q).subs p).pid) same
    simp only [Mqueues.setQueue_self, Mqueue.setSub, Function.update_self] at place
    omega

/-- In every run of calls by tasks with positive pids that gives no queue the id 0, an open is refused
for want of a place only when eight opens of the queue are unmatched, exactly if at the call some place
is still unused or none has been released; and the places that are free or held by an unmatched open
are all eight exactly if none has been released. -/
theorem subscription_capacity (l : MqLife)
    (run : Run MqLife.Step (fun l call => 0 < call.pid ∧ call.FreshId l.sys.queues) .boot l)
    (pid : Int) (name : List Byte) (oflag : Flags) (attr : Option MqAttr) (q : Fin mqMaxOpen)
    (found : l.sys.queues.findHash (strhash name) = some q)
    (isOpen : (l.sys.queues.openQueues q).isOpen = true) (plain : oflag &&& oCreat = 0)
    (positive : 0 < pid) :
    ((mqueueOpen l.sys.queues pid name oflag attr = (-eAcces, l.sys.queues) →
        mqMaxSubscribers ≤ (l.opens q).card) ↔
      (∃ p, ((l.sys.queues.openQueues q).subs p).pid = 0) ∨
        ∀ p, ((l.sys.queues.openQueues q).subs p).pid ≠ -1) ∧
    ((Finset.univ.filter fun p => ((l.sys.queues.openQueues q).subs p).pid = 0).card +
        (l.opens q).card = mqMaxSubscribers ↔
      ∀ p, ((l.sys.queues.openQueues q).subs p).pid ≠ -1) := by
  have ok : l.Ok := run.invariant MqLife.Ok .boot
    fun _ _ _ ok fine taken => ok.step fine.1 fine.2 taken
  obtain ⟨pids, matched, _, _⟩ := ok.slots q
  have size := subscribed_card (l.sys.queues.openQueues q)
  rw [matched] at size
  rw [open_refused _ pid name oflag attr q found isOpen plain positive]
  constructor
  · constructor
    · intro claim
      by_cases unused : ∃ p, ((l.sys.queues.openQueues q).subs p).pid = 0
      · exact .inl unused
      · push Not at unused
        have all := size.2.mp (le_antisymm size.1 (claim unused))
        exact .inr fun p released => by have := all p; omega
    · rintro (⟨p, empty⟩ | unreleased) full
      · exact absurd empty (full p)
      · refine (size.2.mpr fun p => ?_).ge
        have := full p
        have := unreleased p
        rcases pids p with zero | gone | held <;> omega
  · rw [← matched]
    exact places_usable _ pids

theorem round_count (s s' : Mqueues) (wait : MqWait) (out : MqOutcome) (done : wait.round s = .ok (out, s')) :
    s'.mqueueCount = s.mqueueCount := by
  cases wait <;>
  · simp only [MqWait.round] at done
    split at done <;> try split_ifs at done
    all_goals cases done <;> rfl

theorem mqueueJoin_count (s : Mqueues) (pid : Int) (oflag : Flags) (q : Fin mqMaxOpen) :
    (mqueueJoin s pid oflag (some q)).2.mqueueCount = s.mqueueCount := by
  rcases mqueueJoin_cases s pid oflag q with ⟨_, joined⟩ | ⟨_, _, joined⟩ | ⟨p, _, _, joined⟩
  · rw [joined]
  · rw [joined]
  · rw [joined]
    rfl

theorem act_count (s s' : Mqueues) (call : MqCall) (out : MqOutcome) (done : call.act s = .ok (out, s')) :
    s'.mqueueCount = if call.creates s = none then s.mqueueCount else s.mqueueCount + 1 := by
  rcases act_enters s call with ⟨wait, enters, same⟩ | ⟨_, makes, err, _, _, refused⟩ |
    ⟨_, ⟨pid, name, oflag, attr, rfl⟩ | ⟨pid, mqdes, rfl⟩ | ⟨pid, name, rfl⟩⟩
  · have makes : call.creates s = none := by
      cases call <;> first | rfl | cases enters
    rw [if_pos makes]
    exact round_count s s' wait out (same ▸ done)
  · rw [if_pos makes]
    rw [refused] at done
    rw [← (Prod.mk.inj (Except.ok.inj done)).2]
  · rw [← (Prod.mk.inj (Except.ok.inj done)).2]
    rcases mqueueOpen_cases s pid name oflag attr with
      ⟨makes, _, err, _, result⟩ | ⟨q', makes, _, _, result⟩ | ⟨q', limits, makes, _, _, _, result⟩
    · rw [result, if_pos makes]
    · rw [result, if_pos makes, mqueueJoin_count]
    · rw [result, makes, if_neg (by simp), mqueueJoin_count]
      rfl
  · have makes : (MqCall.close pid mqdes).creates s = none := rfl
    rw [← (Prod.mk.inj (Except.ok.inj done)).2, if_pos makes, mqueueClose_eq]
    cases s.find mqdes <;> rfl
  · have makes : (MqCall.unlink pid name).creates s = none := rfl
    rw [← (Prod.mk.inj (Except.ok.inj done)).2, if_pos makes]
    unfold mqueueUnlink
    cases s.findHash (strhash name) <;> rfl

/-- The entry of a slot in the registry is new, or gone, or what it was. -/
theorem SlotStep.entry {s s' : Mqueues} {call : MqCall} {q : Fin mqMaxOpen} (step : SlotStep s call s' q) :
    ((call.creates s).map Prod.fst = some q ∧ (s'.openQueues q).id = toMqd (s.mqueueCount + 1) ∧
        ∀ q', (s.openQueues q').id ≠ 0 → (s.openQueues q').hash ≠ (s'.openQueues q).hash) ∨
      ((call.creates s).map Prod.fst ≠ some q ∧ ((s'.openQueues q).id = 0 ∨
        ((s'.openQueues q).id = (s.openQueues q).id ∧ (s'.openQueues q).hash = (s.openQueues q).hash))) := by
  cases step with
  | same creates _ _ _ kept => exact .inr ⟨creates, .inr ⟨kept.id, kept.hash⟩⟩
  | join p flags creates _ _ _ _ queue =>
    rw [queue]
    exact .inr ⟨creates, .inr ⟨rfl, rfl⟩⟩
  | create hash limits creates _ absent _ _ queue =>
    have made : (s'.openQueues q).id = toMqd (s.mqueueCount + 1) ∧ (s'.openQueues q).hash = hash := by
      rcases queue with ⟨_, _, same⟩ | ⟨p, flags, _, _, same⟩ <;> rw [same] <;>
        simp [Mqueues.create, Mqueue.setSub]
    rw [made.2]
    exact .inl ⟨creates, made.1, fun q' used => s.findHash_none hash absent q' used⟩
  | close creates _ _ _ queue =>
    have kept : (unsubscribe (s.openQueues q) call.pid).2.id = (s.openQueues q).id ∧
        (unsubscribe (s.openQueues q) call.pid).2.hash = (s.openQueues q).hash := by
      unfold unsubscribe
      cases findSubscriber (s.openQueues q) call.pid <;> exact ⟨rfl, rfl⟩
    rw [queue, closeQueue]
    refine .inr ⟨creates, ?_⟩
    split_ifs
    · rcases (destroy_fields (unsubscribe (s.openQueues q) call.pid).2).2.2 with ⟨_, gone⟩ | ⟨_, id, hash⟩
      · exact .inl gone
      · exact .inr ⟨id.trans kept.1, hash.trans kept.2⟩
    · exact .inr kept
  | unlink creates _ _ _ _ queue =>
    rw [queue]
    rcases (destroy_fields (s.openQueues q)).2.2 with ⟨_, gone⟩ | ⟨_, id, hash⟩
    · exact .inr ⟨creates, .inl gone⟩
    · exact .inr ⟨creates, .inr ⟨id, hash⟩⟩

/-- A call keeps the hashes of the slots in use apart. -/
theorem hashes_step {s s' : Mqueues} {call : MqCall} (steps : ∀ q, SlotStep s call s' q)
    (hashes : ∀ q q', (s.openQueues q).id ≠ 0 → (s.openQueues q').id ≠ 0 →
      (s.openQueues q).hash = (s.openQueues q').hash → q = q') (q q' : Fin mqMaxOpen) (used : (s'.openQueues q).id ≠ 0)
    (used' : (s'.openQueues q').id ≠ 0) (same : (s'.openQueues q).hash = (s'.openQueues q').hash) : q = q' := by
  rcases (steps q).entry with ⟨creates, _, new⟩ | ⟨_, gone | ⟨id, hash⟩⟩
  · rcases (steps q').entry with ⟨creates', _⟩ | ⟨_, gone' | ⟨id', hash'⟩⟩
    · exact Option.some.inj (creates.symm.trans creates')
    · exact absurd gone' used'
    · rw [id'] at used'
      exact absurd (hash'.symm.trans same.symm) (new q' used')
  · exact absurd gone used
  · rw [id] at used
    rcases (steps q').entry with ⟨_, _, new⟩ | ⟨_, gone' | ⟨id', hash'⟩⟩
    · exact absurd (hash.symm.trans same) (new q used)
    · exact absurd gone' used'
    · rw [id'] at used'
      exact hashes q q' used used' (hash.symm.trans (same.trans hash'))

/-- Each queue has an id and a name hash of its own. -/
structure MqLife.Registered (l : MqLife) : Prop where
  count : l.sys.queues.mqueueCount.toNat ≤ l.calls
  given : ∀ i, i ∈ l.ids → 0 < i ∧ i ≤ l.sys.queues.mqueueCount.toNat
  nodup : l.ids.Nodup
  mem : ∀ q, (l.sys.queues.openQueues q).id ≠ 0 → (l.sys.queues.openQueues q).id ∈ l.ids
  ids : ∀ q q', (l.sys.queues.openQueues q).id ≠ 0 →
    (l.sys.queues.openQueues q).id = (l.sys.queues.openQueues q').id → q = q'
  hashes : ∀ q q', (l.sys.queues.openQueues q).id ≠ 0 → (l.sys.queues.openQueues q').id ≠ 0 →
    (l.sys.queues.openQueues q).hash = (l.sys.queues.openQueues q').hash → q = q'

theorem MqLife.Registered.boot : MqLife.Registered .boot where
  count := le_refl _
  given _ member := by cases member
  nodup := List.nodup_nil
  mem _ used := absurd rfl used
  ids _ _ used := absurd rfl used
  hashes _ _ used := absurd rfl used

theorem toMqd_succ (count : Word) (small : count.toNat + 1 < 2 ^ 31) :
    toMqd (count + 1) = count.toNat + 1 ∧ (count + 1).toNat = count.toNat + 1 := by
  have next : (count + 1).toNat = count.toNat + 1 := by
    have one : (1 : Word).toNat = 1 := rfl
    rw [BitVec.toNat_add, one]
    omega
  refine ⟨?_, next⟩
  rw [toMqd, BitVec.toInt_eq_toNat_of_lt] <;> rw [BitVec.toNat_setWidth, next] <;> omega

theorem MqCall.registry_creates (call : MqCall) (s : Mqueues) (makes : call.creates s ≠ none) :
    call.registry = 1 := by
  cases call <;> first | rfl | exact absurd rfl makes

theorem MqLife.Registered.step {l l' : MqLife} {call : MqCall} (ok : l.Ok) (registered : l.Registered)
    (few : l.calls + call.registry < 2 ^ 31) (taken : l.Step call l') : l'.Registered := by
  obtain ⟨out, s', ⟨_, acted, _⟩, rfl⟩ := taken
  obtain ⟨count, given, nodup, mem, ids, hashes⟩ := registered
  have new (makes : call.creates l.sys.queues ≠ none) : call.registry = 1 ∧
      toMqd (l.sys.queues.mqueueCount + 1) = l.sys.queues.mqueueCount.toNat + 1 ∧
        (l.sys.queues.mqueueCount + 1).toNat = l.sys.queues.mqueueCount.toNat + 1 := by
    have one := call.registry_creates l.sys.queues makes
    exact ⟨one, toMqd_succ l.sys.queues.mqueueCount (by omega)⟩
  have counted := act_count l.sys.queues s'.queues call out acted
  have entry q := (act_slotStep l.sys.queues s'.queues call out ok.safe.cursors acted q).entry
  -- No queue that is in use has the id of a new one.
  have apart (q q' : Fin mqMaxOpen) (used : (l.sys.queues.openQueues q).id ≠ 0)
      (creates : (call.creates l.sys.queues).map Prod.fst = some q') :
      (l.sys.queues.openQueues q).id ≠ toMqd (l.sys.queues.mqueueCount + 1) := by
    have makes : call.creates l.sys.queues ≠ none := by
      intro none
      rw [none] at creates
      cases creates
    have := new makes
    have := (given _ (mem q used)).2
    omega
  constructor
  case count =>
    show s'.queues.mqueueCount.toNat ≤ l.calls + call.registry
    rw [counted]
    split_ifs with makes
    · omega
    · have := new makes
      omega
  case given =>
    show ∀ i, i ∈ (l.record call s').ids → 0 < i ∧ i ≤ s'.queues.mqueueCount.toNat
    intro i member
    rw [counted]
    cases makes : call.creates l.sys.queues with
    | none =>
      rw [if_pos rfl]
      simp only [MqLife.record, makes] at member
      exact given i member
    | some made =>
      obtain ⟨_, fresh, next⟩ := new (by rw [makes]; simp)
      rw [if_neg (by simp)]
      simp only [MqLife.record, makes, List.mem_cons] at member
      rcases member with rfl | old
      · omega
      · have := given i old
        omega
  case nodup =>
    simp only [MqLife.record]
    cases makes : call.creates l.sys.queues with
    | none => exact nodup
    | some made =>
      refine List.nodup_cons.mpr ⟨fun member => ?_, nodup⟩
      have := new (by rw [makes]; simp)
      have := (given _ member).2
      omega
  case mem =>
    intro q used
    simp only [MqLife.record] at used ⊢
    rcases entry q with ⟨creates, id, _⟩ | ⟨_, gone | ⟨id, _⟩⟩
    · cases makes : call.creates l.sys.queues with
      | none => rw [makes] at creates; cases creates
      | some made =>
        rw [id]
        exact List.mem_cons_self
    · exact absurd gone used
    · rw [id] at used ⊢
      have member := mem q used
      cases call.creates l.sys.queues with
      | none => exact member
      | some made => exact List.mem_cons_of_mem _ member
  case ids =>
    intro q q' used same
    simp only [MqLife.record] at used same
    rcases entry q with ⟨creates, id, _⟩ | ⟨_, gone | ⟨id, _⟩⟩
    · rcases entry q' with ⟨creates', _⟩ | ⟨_, gone' | ⟨id', _⟩⟩
      · exact Option.some.inj (creates.symm.trans creates')
      · exact absurd (same.trans gone') used
      · have used' : (l.sys.queues.openQueues q').id ≠ 0 := by
          rw [← id', ← same]
          exact used
        rw [id, id'] at same
        exact absurd same.symm (apart q' q used' creates)
    · exact absurd gone used
    · rw [id] at used same
      rcases entry q' with ⟨creates', id', _⟩ | ⟨_, gone' | ⟨id', _⟩⟩
      · rw [id'] at same
        exact absurd same (apart q q' used creates')
      · exact absurd (same.trans gone') used
      · exact ids q q' used (same.trans id')
  case hashes => exact hashes_step (act_slotStep _ _ call out ok.safe.cursors acted) hashes

/-- A slot whose last queue has not been unlinked, or still has a subscriber. -/
def MqLife.InUse (l : MqLife) (q : Fin mqMaxOpen) : Prop :=
  l.hosted q = true ∧ ¬ (l.unlinked q = true ∧ l.opens q = 0)

/-- The lifetime of message queues, in the state that a run has reached. -/
structure MqLife.Lifetime (l : MqLife) : Prop where
  nonzero : ∀ q, l.InUse q → (l.sys.queues.openQueues q).id ≠ 0
  distinct : ∀ q q', l.InUse q → l.InUse q' →
    (l.sys.queues.openQueues q).id = (l.sys.queues.openQueues q').id → q = q'
  given : l.ids.Nodup ∧ ∀ q, l.InUse q → (l.sys.queues.openQueues q).id ∈ l.ids
  hashes : ∀ q q', l.InUse q → l.InUse q' →
    (l.sys.queues.openQueues q).hash = (l.sys.queues.openQueues q').hash → q = q'
  free : ∀ q, l.hosted q = true →
    ((l.sys.queues.openQueues q).id = 0 ↔ l.unlinked q = true ∧ l.opens q = 0)
  usable : ∀ q, l.InUse q → l.unlinked q = true → ∀ pid, pid ∈ l.opens q →
    l.sys.queues.find (l.sys.queues.openQueues q).id = some q ∧
      ∃ p, findSubscriber (l.sys.queues.openQueues q) pid = some p ∧
        ((l.sys.queues.openQueues q).subs p).pid = pid
  closed : ∀ q, l.InUse q → l.unlinked q = true → ∀ pid name oflag attr,
    subscribed ((mqueueOpen l.sys.queues pid name oflag attr).2.openQueues q) = l.opens q

theorem MqLife.Ok.free {l : MqLife} (ok : l.Ok) (q : Fin mqMaxOpen) (there : l.hosted q = true) :
    (l.sys.queues.openQueues q).id = 0 ↔ l.unlinked q = true ∧ l.opens q = 0 := by
  obtain ⟨_, _, free, used⟩ := ok.slots q
  constructor
  · intro zero
    exact ⟨(free zero).2.2 there, (free zero).2.1⟩
  · rintro ⟨gone, none⟩
    by_contra nonzero
    obtain ⟨_, linked, held⟩ := used nonzero
    rw [gone] at linked
    exact held (by simpa using linked.symm) none

theorem mqueue_lifetime (l : MqLife)
    (run : Run MqLife.Step (fun l call => 0 < call.pid ∧ l.calls + call.registry < 2 ^ 31) .boot l) :
    l.Lifetime := by
  obtain ⟨ok, registered⟩ : l.Ok ∧ l.Registered := by
    refine run.invariant (fun l => l.Ok ∧ l.Registered) ⟨.boot, .boot⟩ ?_
    rintro l call l' ⟨ok, registered⟩ ⟨positive, few⟩ taken
    refine ⟨ok.step positive (fun makes => ?_) taken, registered.step ok few taken⟩
    have one := call.registry_creates l.sys.queues makes
    have := registered.count
    rw [(toMqd_succ l.sys.queues.mqueueCount (by omega)).1]
    omega
  have nonzero (q : Fin mqMaxOpen) (inUse : l.InUse q) : (l.sys.queues.openQueues q).id ≠ 0 :=
    fun zero => inUse.2 ((ok.free q inUse.1).mp zero)
  constructor
  case nonzero => exact nonzero
  case distinct => exact fun q q' inUse _ same => registered.ids q q' (nonzero q inUse) same
  case given => exact ⟨registered.nodup, fun q inUse => registered.mem q (nonzero q inUse)⟩
  case hashes =>
    exact fun q q' inUse inUse' same => registered.hashes q q' (nonzero q inUse) (nonzero q' inUse') same
  case free => exact ok.free
  case usable =>
    intro q inUse _ pid member
    refine ⟨Slots.first_unique _ q (by simp) fun q' same => ?_, ?_⟩
    · exact (registered.ids q q' (nonzero q inUse) (by simpa using Eq.symm (of_decide_eq_true same))).symm
    · rw [← (ok.slots q).matched] at member
      have positive := ((mem_subscribed _ pid).mp member).1
      cases found : findSubscriber (l.sys.queues.openQueues q) pid with
      | none => exact absurd member ((findSubscriber_none _ pid positive).mp found)
      | some p => exact ⟨p, rfl, findSubscriber_some _ pid positive p found⟩
  case closed =>
    intro q inUse gone pid name oflag attr
    have shut : (l.sys.queues.openQueues q).isOpen = false := by
      have linked := ((ok.slots q).used (nonzero q inUse)).2.1
      rw [gone] at linked
      simpa using linked.symm
    rw [← (ok.slots q).matched]
    cases slotStep_open l.sys.queues pid name oflag attr q with
    | same _ _ _ _ kept => exact subscribed_congr _ _ kept.pids
    | join _ _ _ _ _ isOpen =>
      rw [shut] at isOpen
      cases isOpen
    | create _ _ _ free => exact absurd free (nonzero q inUse)
    | close _ _ closes => cases closes
    | unlink _ _ _ unlinks => cases unlinks

def openPlain (pid : Int) (oflag : Flags) : MqCall := .open pid [0x71] oflag none

-- One task makes a queue.
theorem openPlain_run (allowed : MqLife → MqCall → Prop) (fine : allowed .boot (openPlain 1 oCreat)) :
    ∃ l, Run MqLife.Step allowed .boot l ∧ l.sys.queues.findHash (strhash [0x71]) = some 0 ∧
      (l.sys.queues.openQueues 0).isOpen = true := by
  have calls : (playCalls MqLife.sys (fun l call _ s' => l.record call s') .boot [openPlain 1 oCreat]).map
      (fun l => (l.sys.queues.findHash (strhash [0x71]), (l.sys.queues.openQueues 0).isOpen)) =
      some (some 0, true) := by decide +kernel
  obtain ⟨l, played, same⟩ := Option.map_eq_some_iff.mp calls
  obtain ⟨found, isOpen⟩ := Prod.mk.inj same
  refine ⟨l, ?_, found, isOpen⟩
  simp only [playCalls, openPlain] at played
  refine .next MqLife.boot l (openPlain 1 oCreat) .start fine ?_
  obtain rfl := Option.some.inj played
  exact ⟨_, _, ⟨rfl, rfl, (Function.update_eq_self 1 (fun _ => none)).symm⟩, rfl⟩

theorem mqueue_lifetime_one : ∃ l : MqLife, l.Lifetime ∧ (l.sys.queues.openQueues 0).isOpen = true := by
  obtain ⟨l, run, _, isOpen⟩ := openPlain_run
    (fun l call => 0 < call.pid ∧ l.calls + call.registry < 2 ^ 31) ⟨by decide, by decide⟩
  exact ⟨l, mqueue_lifetime l run, isOpen⟩

theorem subscription_capacity_one : ∃ l : MqLife,
    ((mqueueOpen l.sys.queues 2 [0x71] 0 none = (-eAcces, l.sys.queues) →
        mqMaxSubscribers ≤ (l.opens 0).card) ↔
      (∃ p, ((l.sys.queues.openQueues 0).subs p).pid = 0) ∨
        ∀ p, ((l.sys.queues.openQueues 0).subs p).pid ≠ -1) := by
  obtain ⟨l, run, found, isOpen⟩ := openPlain_run
    (fun l call => 0 < call.pid ∧ call.FreshId l.sys.queues) ⟨by decide, fun _ => by decide⟩
  exact ⟨l, (subscription_capacity l run 2 [0x71] 0 none 0 found isOpen (by decide) (by decide)).1⟩

-- Eight opens, each closed at once, use up the places of a queue.
theorem closedPlaces_lost :
    ¬ ∀ l : MqLife, Run MqLife.Step (fun _ call => 0 < call.pid) .boot l →
      ∀ (pid : Int) (name : List Byte) (oflag : Flags) (attr : Option MqAttr) (q : Fin mqMaxOpen),
        l.sys.queues.findHash (strhash name) = some q → (l.sys.queues.openQueues q).isOpen = true →
        oflag &&& oCreat = 0 → 0 < pid →
        mqueueOpen l.sys.queues pid name oflag attr = (-eAcces, l.sys.queues) →
        mqMaxSubscribers ≤ (l.opens q).card := by
  intro claim
  have calls : (playCalls MqLife.sys (fun l call _ s' => l.record call s') .boot
      (openPlain 1 oCreat :: .close 1 1 ::
        (List.replicate 7 [openPlain 1 0, .close 1 1]).flatten)).map
      (fun l => (l.sys.queues.findHash (strhash [0x71]), (l.sys.queues.openQueues 0).isOpen,
        decide (∀ p, ((l.sys.queues.openQueues 0).subs p).pid ≠ 0), (l.opens 0).card)) =
      some (some 0, true, true, 0) := by decide +kernel
  obtain ⟨l, played, same⟩ := Option.map_eq_some_iff.mp calls
  simp only [Prod.mk.injEq, decide_eq_true_eq] at same
  obtain ⟨found, isOpen, full, unmatched⟩ := same
  have run : Run MqLife.Step (fun _ call => 0 < call.pid) .boot l := by
    refine playCalls_run MqLife.sys (fun l call _ s' => l.record call s') (fun _ call => 0 < call.pid)
      (fun _ _ _ _ => rfl) .boot .boot l _ .start rfl ?_ ?_ played
    · simp [openPlain]
    · simp [openPlain, MqCall.pid]
  have held := claim l run 1 [0x71] 0 none 0 found isOpen (by decide) (by decide)
    ((open_refused _ 1 [0x71] 0 none 0 found isOpen (by decide) (by decide)).mpr full)
  rw [unmatched] at held
  cases held

end Anthill
