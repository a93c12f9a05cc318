import Mathlib.Data.Finset.Card

set_option autoImplicit false

namespace Aging

variable {T : Type}

structure Choice (T : Type) where
  ready : T → Prop
  picked : T

/-- An oldest one of the ready members is picked. It starts again from zero, and the others age by `step`. -/
structure Ages (members : Finset T) (step : Int) (age : T → Int) (choice : Choice T) (age' : T → Int) : Prop where
  member : choice.picked ∈ members
  ready : choice.ready choice.picked
  oldest : ∀ t, t ∈ members → choice.ready t → age t ≤ age choice.picked
  restarts : age' choice.picked = 0
  grows : ∀ t, t ∈ members → t ≠ choice.picked → age' t = age t + step

/-- The choices made so far, and how old they leave the members. -/
inductive Log (members : Finset T) (step : Int) (age₀ : T → Int) : List (Choice T) → (T → Int) → Prop where
  | start : Log members step age₀ [] age₀
  | next (choices : List (Choice T)) (age : T → Int) (choice : Choice T) (age' : T → Int)
      (before : Log members step age₀ choices age) (ages : Ages members step age choice age') :
      Log members step age₀ (choices ++ [choice]) age'

variable {members : Finset T} {step : Int} {age₀ age : T → Int} {choices : List (Choice T)}

theorem Log.ready (log : Log members step age₀ choices age) (choice : Choice T) (member : choice ∈ choices) :
    choice.ready choice.picked := by
  induction log with
  | start => cases member
  | next choices age last age' _ ages ih =>
    rcases List.mem_append.mp member with old | new
    · exact ih old
    · rw [List.mem_singleton.mp new]
      exact ages.ready

theorem Log.nonneg (log : Log members step age₀ choices age) (first : ∀ t, t ∈ members → 0 ≤ age₀ t)
    (forward : 0 < step) (t : T) (member : t ∈ members) : 0 ≤ age t := by
  induction log with
  | start => exact first t member
  | next choices age last age' _ ages ih =>
    by_cases here : t = last.picked
    · rw [here, ages.restarts]
    · rw [ages.grows t member here]
      omega

-- What was logged up to some choice.
theorem Log.before (log : Log members step age₀ choices age) (early late : List (Choice T))
    (split : choices = early ++ late) : ∃ age', Log members step age₀ early age' := by
  induction late using List.reverseRecOn generalizing choices age with
  | nil =>
    rw [List.append_nil] at split
    exact ⟨age, split ▸ log⟩
  | append_singleton late last ih =>
    cases log with
    | start => simp at split
    | next choices' age' last' _ before _ =>
      rw [← List.append_assoc] at split
      exact ih before (List.append_inj' split rfl).1

/-- A member that is ready all through a window in which it is not picked is older than each member that
was picked there, and none of those was picked twice. -/
theorem Log.waits (log : Log members step age₀ choices age) (first : ∀ t, t ∈ members → 0 ≤ age₀ t)
    (forward : 0 < step) (t : T) (member : t ∈ members) (early window : List (Choice T))
    (split : choices = early ++ window) (ready : ∀ choice, choice ∈ window → choice.ready t)
    (passed : ∀ choice, choice ∈ window → choice.picked ≠ t) :
    (window.map Choice.picked).Nodup ∧ ∀ u, u ∈ window.map Choice.picked → u ∈ members ∧ age u + step ≤ age t := by
  induction window using List.reverseRecOn generalizing choices age with
  | nil => simp
  | append_singleton window last ih =>
    cases log with
    | start => simp at split
    | next choices' before' last' _ before ages =>
      rw [← List.append_assoc] at split
      obtain ⟨rfl, same⟩ := List.append_inj' split rfl
      obtain rfl : last' = last := by simpa using same
      obtain ⟨distinct, younger⟩ := ih before rfl (fun choice inside => ready choice (by simp [inside]))
        (fun choice inside => passed choice (by simp [inside]))
      have other : t ≠ last'.picked := fun same => passed last' (by simp) same.symm
      have older := ages.oldest t member (ready last' (by simp))
      have new : last'.picked ∉ window.map Choice.picked := fun again => by
        have := (younger _ again).2
        omega
      have ahead := before.nonneg first forward t member
      rw [List.map_append, List.map_singleton]
      refine ⟨List.nodup_append.mpr ⟨distinct, List.nodup_singleton _, ?_⟩, fun u inside => ?_⟩
      · rintro u before' v here rfl
        rw [List.mem_singleton.mp here] at before'
        exact new before'
      · rw [ages.grows t member other]
        by_cases here : u = last'.picked
        · subst here
          rw [ages.restarts]
          exact ⟨ages.member, by omega⟩
        · rcases List.mem_append.mp inside with old | last
          · obtain ⟨listed, below⟩ := younger u old
            rw [ages.grows u listed here]
            exact ⟨listed, by omega⟩
          · exact absurd (List.mem_singleton.mp last) here

/-- A member that is ready at as many choices in a row as there are members is picked at one of them. -/
theorem Log.picks (log : Log members step age₀ choices age) (first : ∀ t, t ∈ members → 0 ≤ age₀ t)
    (forward : 0 < step) (t : T) (member : t ∈ members) (early window late : List (Choice T))
    (split : choices = early ++ window ++ late) (long : window.length = members.card)
    (ready : ∀ choice, choice ∈ window → choice.ready t) : ∃ choice, choice ∈ window ∧ choice.picked = t := by
  classical
  by_contra none
  push Not at none
  obtain ⟨age', log'⟩ := log.before (early ++ window) late split
  obtain ⟨distinct, younger⟩ := log'.waits first forward t member early window rfl ready none
  have inside : (window.map Choice.picked).toFinset ⊆ members.erase t := by
    intro u listed
    rw [List.mem_toFinset] at listed
    refine Finset.mem_erase.mpr ⟨?_, (younger u listed).1⟩
    rintro rfl
    have := (younger u listed).2
    omega
  have fewer := Finset.card_le_card inside
  rw [List.toFinset_card_of_nodup distinct, List.length_map, long, Finset.card_erase_of_mem member] at fewer
  have positive := Finset.card_pos.mpr ⟨t, member⟩
  omega

end Aging
