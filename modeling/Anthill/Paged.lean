import Anthill.Slots
import Mathlib.Data.List.Basic

set_option autoImplicit false

namespace Paged

variable {A : Type} {n : Nat} [NeZero n]

/-- Which slot of its page an index names. -/
def place (n i : Nat) [NeZero n] : Fin n := ⟨i % n, Nat.mod_lt i (Nat.pos_of_neZero n)⟩

/-- The slots of a list of pages, counted through. -/
def get (pages : List (Fin n → A)) (i : Nat) : Option A :=
  pages[i / n]?.map fun page => page (place n i)

def modify (pages : List (Fin n → A)) (i : Nat) (f : A → A) : List (Fin n → A) :=
  pages.modify (i / n) fun page => Function.update page (place n i) (f (page (place n i)))

theorem get_isSome (pages : List (Fin n → A)) (i : Nat) :
    (get pages i).isSome = true ↔ i < pages.length * n := by
  rw [get, Option.isSome_map, ← Nat.div_lt_iff_lt_mul (Nat.pos_of_neZero n)]
  simp

@[simp] theorem length_modify (pages : List (Fin n → A)) (i : Nat) (f : A → A) :
    (modify pages i f).length = pages.length := by
  simp [modify]

@[simp] theorem get_modify_self (pages : List (Fin n → A)) (i : Nat) (f : A → A) :
    get (modify pages i f) i = (get pages i).map f := by
  simp only [get, modify, List.getElem?_modify, if_true]
  cases pages[i / n]? <;> simp

theorem get_modify_of_ne (pages : List (Fin n → A)) (i j : Nat) (f : A → A) (away : j ≠ i) :
    get (modify pages i f) j = get pages j := by
  simp only [get, modify, List.getElem?_modify]
  by_cases same : i / n = j / n
  · have other : place n j ≠ place n i := by
      intro equal
      have slots : j % n = i % n := congrArg Fin.val equal
      apply away
      rw [← Nat.div_add_mod j n, ← Nat.div_add_mod i n, slots, same]
    cases pages[j / n]? <;> simp [same, other]
  · cases pages[j / n]? <;> simp [same]

@[simp] theorem modify_modify (pages : List (Fin n → A)) (i : Nat) (f g : A → A) :
    modify (modify pages i f) i g = modify pages i fun a => g (f a) := by
  simp [modify, List.modify_modify_eq, Function.comp_def]

@[simp] theorem modify_id (pages : List (Fin n → A)) (i : Nat) : modify pages i (fun a => a) = pages := by
  simp only [modify, Function.update_eq_self]
  exact List.modify_id (i / n) pages

-- Writing back what is there.
theorem modify_same (pages : List (Fin n → A)) (i : Nat) (a : A) (here : get pages i = some a) :
    modify pages i (fun _ => a) = pages := by
  obtain ⟨page, found, same⟩ := Option.map_eq_some_iff.mp here
  refine List.ext_getElem? fun p => ?_
  rw [modify, List.getElem?_modify]
  by_cases at_ : i / n = p
  · rw [← at_, found, ← same]
    simp
  · simp [at_]

theorem get_append_old (pages more : List (Fin n → A)) (i : Nat) (inside : i < pages.length * n) :
    get (pages ++ more) i = get pages i := by
  rw [get, get, List.getElem?_append_left ((Nat.div_lt_iff_lt_mul (Nat.pos_of_neZero n)).mpr inside)]

theorem get_of_place (pages : List (Fin n → A)) (p : Nat) (j : Fin n) :
    get pages (p * n + j.val) = pages[p]?.map fun page => page j := by
  have page : (p * n + j.val) / n = p := by
    rw [Nat.mul_comm, Nat.mul_add_div (Nat.pos_of_neZero n), Nat.div_eq_of_lt j.isLt, Nat.add_zero]
  have slot : place n (p * n + j.val) = j := by
    apply Fin.ext
    show (p * n + j.val) % n = j.val
    rw [Nat.mul_comm, Nat.mul_add_mod, Nat.mod_eq_of_lt j.isLt]
  rw [get, page, slot]

theorem get_append_new (pages : List (Fin n → A)) (page : Fin n → A) (j : Fin n) :
    get (pages ++ [page]) (pages.length * n + j.val) = some (page j) := by
  rw [get_of_place]
  simp

-- Every index is a page and a place in it.
theorem get_some_iff (pages : List (Fin n → A)) (i : Nat) (a : A) :
    get pages i = some a ↔ ∃ p page j, pages[p]? = some page ∧ i = p * n + j.val ∧ page j = a := by
  constructor
  · intro here
    obtain ⟨page, found, same⟩ := Option.map_eq_some_iff.mp here
    exact ⟨i / n, page, place n i, found, (Nat.div_add_mod' i n).symm, same⟩
  · rintro ⟨p, page, j, found, rfl, rfl⟩
    rw [get_of_place, found, Option.map_some]

end Paged
