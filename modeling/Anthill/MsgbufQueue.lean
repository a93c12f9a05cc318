import Anthill.MsgbufTasks

set_option autoImplicit false

namespace Anthill

/-- The receive queue from its position on. -/
def Msgbuf.queued (msgbuf : Msgbuf) (i : Fin queueSize) : Int := msgbuf.recvQueue (queuePlace msgbuf i)

/-- The queue after its first cell has been taken and cleared. -/
def shifted (queue : Fin queueSize → Int) (i : Fin queueSize) : Int :=
  if inside : i.val + 1 < queueSize then queue ⟨i.val + 1, inside⟩ else -1

theorem queuePlace_inj (msgbuf : Msgbuf) (i j : Fin queueSize)
    (same : queuePlace msgbuf i = queuePlace msgbuf j) : i = j := by
  have places : (msgbuf.recvQueuePos.toNat + i.val) % 8 = (msgbuf.recvQueuePos.toNat + j.val) % 8 :=
    congrArg Fin.val same
  have insideI : i.val < 8 := i.isLt
  have insideJ : j.val < 8 := j.isLt
  apply Fin.ext
  omega

/-- A push writes the first free cell, or fails in a full queue. -/
theorem queuePush_cases (msgbuf : Msgbuf) (sendId : Int) (inside : msgbuf.recvQueuePos.toNat < queueSize) :
    (∃ i msgbuf', (Slots.first fun i => msgbuf.queued i = -1) = some i ∧
      queuePush msgbuf sendId = (true, msgbuf') ∧ msgbuf'.queued = Function.update msgbuf.queued i sendId ∧
      ∃ queue, msgbuf' = { msgbuf with recvQueue := queue }) ∨
    ((∀ i, msgbuf.queued i ≠ -1) ∧ queuePush msgbuf sendId = (false, msgbuf)) := by
  have bound : msgbuf.recvQueuePos.toNat + queueSize < 2 ^ 64 := by
    have : queueSize = 8 := rfl
    omega
  unfold queuePush
  rw [if_pos bound]
  cases found : Slots.first fun i => decide (msgbuf.recvQueue (queuePlace msgbuf i) = -1) with
  | some i =>
    refine .inl ⟨i, _, found, rfl, ?_, _, rfl⟩
    funext j
    show Function.update msgbuf.recvQueue (queuePlace msgbuf i) sendId (queuePlace msgbuf j) = _
    by_cases here : j = i
    · subst here
      simp
    · rw [Function.update_of_ne here, Function.update_of_ne fun same => here (queuePlace_inj msgbuf j i same)]
      rfl
  | none =>
    refine .inr ⟨fun i => ?_, rfl⟩
    exact of_decide_eq_false ((Slots.first_none _).mp found i)

/-- A pop takes the first cell and moves on, or finds it empty. -/
theorem queuePop_cases (msgbuf : Msgbuf) (inside : msgbuf.recvQueuePos.toNat < queueSize) :
    (msgbuf.queued 0 = -1 ∧ queuePop msgbuf = .ok (-1, msgbuf)) ∨
    (msgbuf.queued 0 ≠ -1 ∧ ∃ msgbuf', queuePop msgbuf = .ok (msgbuf.queued 0, msgbuf') ∧
      msgbuf'.queued = shifted msgbuf.queued ∧ msgbuf'.recvQueuePos.toNat < queueSize ∧
      ∃ queue pos, msgbuf' = { msgbuf with recvQueue := queue, recvQueuePos := pos }) := by
  have small : msgbuf.recvQueuePos.toNat < 8 := inside
  have front : queuePlace msgbuf 0 = ⟨msgbuf.recvQueuePos.toNat, inside⟩ := by
    apply Fin.ext
    show (msgbuf.recvQueuePos.toNat + 0) % 8 = msgbuf.recvQueuePos.toNat
    omega
  have next : ((msgbuf.recvQueuePos + 1) % 8).toNat = (msgbuf.recvQueuePos.toNat + 1) % 8 := by
    have one : (1 : Word).toNat = 1 := rfl
    have eight : (8 : Word).toNat = 8 := rfl
    rw [BitVec.toNat_umod, BitVec.toNat_add, one, eight]
    omega
  unfold queuePop Msgbuf.queued
  rw [dif_pos inside, front]
  by_cases empty : msgbuf.recvQueue ⟨msgbuf.recvQueuePos.toNat, inside⟩ = -1
  · exact .inl ⟨empty, if_pos empty⟩
  · refine .inr ⟨empty, _, if_neg empty, ?_, ?_, _, _, rfl⟩
    · funext i
      have low : i.val < 8 := i.isLt
      show Function.update msgbuf.recvQueue ⟨msgbuf.recvQueuePos.toNat, inside⟩ (-1)
        (Paged.place queueSize (((msgbuf.recvQueuePos + 1) % 8).toNat + i.val)) = _
      have place : Paged.place queueSize (((msgbuf.recvQueuePos + 1) % 8).toNat + i.val) =
          Paged.place queueSize (msgbuf.recvQueuePos.toNat + (i.val + 1)) := by
        apply Fin.ext
        show (((msgbuf.recvQueuePos + 1) % 8).toNat + i.val) % 8 =
          (msgbuf.recvQueuePos.toNat + (i.val + 1)) % 8
        rw [next]
        omega
      rw [place, shifted]
      split_ifs with more
      · refine Function.update_of_ne (fun same => ?_) _ _
        have equal : (msgbuf.recvQueuePos.toNat + (i.val + 1)) % 8 = msgbuf.recvQueuePos.toNat :=
          congrArg Fin.val same
        have : i.val + 1 < 8 := more
        omega
      · have last : Paged.place queueSize (msgbuf.recvQueuePos.toNat + (i.val + 1)) =
            ⟨msgbuf.recvQueuePos.toNat, inside⟩ := by
          apply Fin.ext
          show (msgbuf.recvQueuePos.toNat + (i.val + 1)) % 8 = msgbuf.recvQueuePos.toNat
          have : ¬ i.val + 1 < 8 := more
          omega
        rw [last, Function.update_self]
    · show ((msgbuf.recvQueuePos + 1) % 8).toNat < 8
      rw [next]
      omega

/-- The ids in the receive queue, in order. The free cells come behind them. -/
structure Msgbuf.Contents (msgbuf : Msgbuf) (ids : List Int) : Prop where
  cells : ∀ i, msgbuf.queued i = ids[i.val]?.getD (-1)
  length : ids.length ≤ queueSize
  used : ∀ id ∈ ids, id ≠ -1

theorem Msgbuf.Contents.nil (msgbuf : Msgbuf) (free : msgbuf.recvQueue = fun _ => -1) : msgbuf.Contents [] :=
  ⟨fun i => by rw [queued, free]; rfl, Nat.zero_le _, fun id none => absurd none List.not_mem_nil⟩

theorem Msgbuf.Contents.same {msgbuf : Msgbuf} {ids : List Int} (contents : msgbuf.Contents ids)
    (msgbuf' : Msgbuf) (queue : msgbuf'.recvQueue = msgbuf.recvQueue)
    (pos : msgbuf'.recvQueuePos = msgbuf.recvQueuePos) : msgbuf'.Contents ids := by
  refine ⟨fun i => ?_, contents.length, contents.used⟩
  rw [← contents.cells i, queued, queued, queue, queuePlace, queuePlace, pos]

section Contents

variable {msgbuf : Msgbuf} {ids : List Int} (contents : msgbuf.Contents ids)

include contents

theorem Msgbuf.Contents.free (i : Fin queueSize) : msgbuf.queued i = -1 ↔ ids.length ≤ i.val := by
  rw [contents.cells]
  by_cases inside : i.val < ids.length
  · have used := contents.used _ (List.getElem_mem inside)
    simp only [List.getElem?_eq_getElem inside, Option.getD_some, used, false_iff]
    omega
  · simp [Nat.not_lt.mp inside]

/-- A push appends, or changes nothing. -/
theorem Msgbuf.Contents.push (sendId : Int) (used : sendId ≠ -1) (pushed : Bool) (msgbuf' : Msgbuf)
    (done : queuePush msgbuf sendId = (pushed, msgbuf')) :
    (pushed = true ∧ msgbuf'.Contents (ids ++ [sendId])) ∨ (pushed = false ∧ msgbuf' = msgbuf) := by
  unfold queuePush at done
  split_ifs at done with bound
  · cases found : Slots.first fun i => decide (msgbuf.recvQueue (queuePlace msgbuf i) = -1) with
    | none =>
      simp only [found] at done
      exact .inr ⟨(Prod.mk.inj done).1.symm, (Prod.mk.inj done).2.symm⟩
    | some i =>
      simp only [found] at done
      obtain ⟨rfl, rfl⟩ := Prod.mk.inj done
      have here : ids.length ≤ i.val := (contents.free i).mp (of_decide_eq_true (Slots.first_some _ i found))
      have length : i.val = ids.length := by
        by_contra other
        have before : ids.length < i.val := by omega
        have taken := Slots.first_least _ i ⟨ids.length, before.trans i.isLt⟩ found before
        exact of_decide_eq_false taken ((contents.free _).mpr (le_refl _))
      refine .inl ⟨rfl, fun j => ?_, ?_, fun id member => ?_⟩
      · show Function.update msgbuf.recvQueue (queuePlace msgbuf i) sendId (queuePlace msgbuf j) = _
        by_cases same : j = i
        · subst same
          simp [length]
        · rw [Function.update_of_ne fun place => same (queuePlace_inj msgbuf j i place)]
          have old := contents.cells j
          rw [Msgbuf.queued] at old
          rw [old]
          have away : j.val ≠ ids.length := fun equal => same (Fin.ext (equal.trans length.symm))
          rcases Nat.lt_or_gt_of_ne away with before | behind
          · rw [List.getElem?_append_left before]
          · rw [List.getElem?_eq_none (by omega), List.getElem?_eq_none (by simp; omega)]
      · have inside := i.isLt
        rw [List.length_append, List.length_singleton]
        omega
      · rcases List.mem_append.mp member with old | last
        · exact contents.used id old
        · rw [List.mem_singleton.mp last]
          exact used
  · exact .inr ⟨(Prod.mk.inj done).1.symm, (Prod.mk.inj done).2.symm⟩

/-- A pop takes the first id, or finds none. -/
theorem Msgbuf.Contents.pop (sendId : Int) (msgbuf' : Msgbuf)
    (done : queuePop msgbuf = .ok (sendId, msgbuf')) :
    (ids = [] ∧ sendId = -1 ∧ msgbuf' = msgbuf) ∨
      ∃ rest, ids = sendId :: rest ∧ sendId ≠ -1 ∧ msgbuf'.Contents rest := by
  have inside : msgbuf.recvQueuePos.toNat < queueSize := by
    by_contra outside
    rw [queuePop, dif_neg outside] at done
    cases done
  rcases queuePop_cases msgbuf inside with ⟨empty, result⟩ | ⟨some, taken, result, queue, _, _⟩ <;>
    rw [result] at done <;> obtain ⟨rfl, rfl⟩ := Prod.mk.inj (Except.ok.inj done)
  · have length := (contents.free 0).mp empty
    exact .inl ⟨List.eq_nil_of_length_eq_zero (Nat.le_zero.mp length), rfl, rfl⟩
  · cases ids with
    | nil => exact absurd (contents.cells 0) some
    | cons id rest =>
      have first : msgbuf.queued 0 = id := contents.cells 0
      have length := contents.length
      rw [List.length_cons] at length
      refine .inr ⟨rest, by rw [first], some, fun i => ?_, by omega, fun id member =>
        contents.used id (List.mem_cons_of_mem _ member)⟩
      rw [queue, shifted]
      split_ifs with more
      · rw [contents.cells]
        rfl
      · rw [List.getElem?_eq_none (by omega)]
        rfl

end Contents

end Anthill
