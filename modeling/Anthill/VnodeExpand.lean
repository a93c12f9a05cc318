import Anthill.Vnode
import Mathlib.Data.List.Find
import Mathlib.Data.List.Infix
import Mathlib.Data.List.GetD

set_option autoImplicit false

namespace Anthill

-- The vnodes that successive elements lead to, as far as a lookup finds them.
def trail (find : VnodeId → Pstring → Option VnodeId) : VnodeId → List Pstring → List VnodeId
  | _, [] => []
  | v, element :: elements =>
    match find v element with
    | none => []
    | some child => child :: trail find child elements

section Trail

variable (find : VnodeId → Pstring → Option VnodeId)

variable {find} in
theorem trail_none {v : VnodeId} {e : Pstring} (missing : find v e = none) (es : List Pstring) :
    trail find v (e :: es) = [] := by
  rw [trail, missing]

variable {find} in
theorem trail_some {v child : VnodeId} {e : Pstring} (found : find v e = some child) (es : List Pstring) :
    trail find v (e :: es) = child :: trail find child es := by
  rw [trail, found]

theorem trail_length_le (v : VnodeId) (es : List Pstring) : (trail find v es).length ≤ es.length := by
  induction es generalizing v with
  | nil => exact Nat.le_refl 0
  | cons e es ih =>
    rw [trail]
    split
    · exact Nat.zero_le _
    · next child _ => exact Nat.succ_le_succ (ih child)

theorem trail_missing (v : VnodeId) (es : List Pstring) (e : Pstring)
    (next : es[(trail find v es).length]? = some e) : find ((trail find v es).getLastD v) e = none := by
  induction es generalizing v with
  | nil => cases next
  | cons e' es ih =>
    rw [trail] at next ⊢
    split at next
    · next missing =>
      obtain rfl : e' = e := Option.some.inj next
      exact missing
    · next child found =>
      rw [List.getLastD_cons]
      exact ih child next

-- A lookup leads to a child.
def Descends : Prop := ∀ u e child, find u e = some child → ∃ i, child = i :: u

section Descends

variable {find} (descends : Descends find)

include descends

theorem trail_suffix (v : VnodeId) (es : List Pstring) : v <:+ (trail find v es).getLastD v := by
  induction es generalizing v with
  | nil => exact List.suffix_rfl
  | cons e es ih =>
    cases found : find v e with
    | none =>
      rw [trail_none found]
      exact List.suffix_rfl
    | some child =>
      rw [trail_some found, List.getLastD_cons]
      obtain ⟨i, rfl⟩ := descends v e child found
      exact (List.suffix_cons i v).trans (ih (i :: v))

theorem trail_take_length (v : VnodeId) (es : List Pstring) (k : Nat) (short : k ≤ (trail find v es).length) :
    (((trail find v es).take k).getLastD v).length = v.length + k := by
  induction es generalizing v k with
  | nil =>
    obtain rfl : k = 0 := Nat.le_zero.mp short
    rfl
  | cons e es ih =>
    cases found : find v e with
    | none =>
      rw [trail_none found] at short ⊢
      obtain rfl : k = 0 := Nat.le_zero.mp short
      rfl
    | some child =>
      rw [trail_some found] at short ⊢
      cases k with
      | zero => rfl
      | succ k =>
        obtain ⟨i, rfl⟩ := descends v e child found
        rw [List.take_succ_cons, List.getLastD_cons, ih (i :: v) k (Nat.le_of_succ_le_succ short), List.length_cons,
          Nat.add_assoc, Nat.add_comm 1]

theorem trail_last_length (v : VnodeId) (es : List Pstring) :
    ((trail find v es).getLastD v).length = v.length + (trail find v es).length := by
  have whole := trail_take_length descends v es _ (Nat.le_refl _)
  rwa [List.take_length] at whole

theorem trail_keep (find' : VnodeId → Pstring → Option VnodeId) (v : VnodeId) (es : List Pstring)
    (same : ∀ u e, u.length < v.length + (trail find v es).length → find' u e = find u e) :
    trail find' v es = trail find v es ++
      trail find' ((trail find v es).getLastD v) (es.drop (trail find v es).length) := by
  induction es generalizing v with
  | nil => rfl
  | cons e es ih =>
    cases found : find v e with
    | none =>
      rw [trail_none found]
      rfl
    | some child =>
      rw [trail_some found] at same ⊢
      rw [trail_some ((same v e (by simp)).trans found)]
      simp only [List.length_cons, List.drop_succ_cons, List.cons_append, List.getLastD_cons]
      obtain ⟨i, rfl⟩ := descends v e child found
      exact congrArg _ (ih (i :: v) fun u e' short => same u e' (by rw [List.length_cons] at short ⊢; omega))

end Descends

theorem trail_eq (L : List VnodeId) (v : VnodeId) (es : List Pstring) (short : L.length ≤ es.length)
    (steps : ∀ j e, es[j]? = some e → find ((L.take j).getLastD v) e = L[j]?) : trail find v es = L := by
  induction es generalizing v L with
  | nil => exact (List.eq_nil_of_length_eq_zero (Nat.le_zero.mp short)).symm
  | cons e es ih =>
    have first := steps 0 e rfl
    rw [List.take_zero, List.getLastD_nil] at first
    cases L with
    | nil => exact trail_none first es
    | cons u L =>
      rw [trail_some first]
      refine congrArg _ (ih L u (Nat.le_of_succ_le_succ short) fun j e' element => ?_)
      have later := steps (j + 1) e' element
      rwa [List.take_succ_cons, List.getLastD_cons, List.getElem?_cons_succ] at later

theorem trail_stop (v : VnodeId) (es : List Pstring) :
    trail find ((trail find v es).getLastD v) (es.drop (trail find v es).length) = [] := by
  rcases Nat.lt_or_ge (trail find v es).length es.length with inside | outside
  · rw [List.drop_eq_getElem_cons inside]
    exact trail_none (trail_missing find v es _ (List.getElem?_eq_getElem inside)) _
  · rw [List.drop_eq_nil_of_le outside, trail]

end Trail

theorem vnodeFindChild_congr {t t' : VnodeTree} {v : VnodeId} (count : (t'.node v).childrenNo = (t.node v).childrenNo)
    (names : ∀ i, i < (t.node v).childrenNo → (t'.node (i :: v)).name = (t.node (i :: v)).name) (name : Pstring) :
    vnodeFindChild t' v name = vnodeFindChild t v name := by
  rw [vnodeFindChild, vnodeFindChild, count]
  congr 1
  refine List.find?_congr fun i listed => ?_
  rw [Vnode.begins, Vnode.begins, names i (List.mem_range.mp listed)]

theorem vnodeFindChild_child {t : VnodeTree} {v child : VnodeId} {name : Pstring}
    (found : vnodeFindChild t v name = some child) :
    ∃ i, i < (t.node v).childrenNo ∧ child = i :: v ∧ (t.node child).begins name = true := by
  obtain ⟨i, first, rfl⟩ := Option.map_eq_some_iff.mp found
  exact ⟨i, List.mem_range.mp (List.mem_of_find?_eq_some first), rfl, (List.find?_eq_some_iff_append.mp first).1⟩

theorem vnodeFindChild_descends (t : VnodeTree) : Descends (vnodeFindChild t) := by
  intro u e child found
  obtain ⟨i, -, is, -⟩ := vnodeFindChild_child found
  exact ⟨i, is⟩

-- A child that is added is found where none was.
theorem vnodeFindChild_added {t t' : VnodeTree} {v : VnodeId} {name : Pstring}
    (missing : vnodeFindChild t v name = none) (count : (t'.node v).childrenNo = (t.node v).childrenNo + 1)
    (names : ∀ i, i < (t.node v).childrenNo → (t'.node (i :: v)).name = (t.node (i :: v)).name)
    (begins : (t'.node ((t.node v).childrenNo :: v)).begins name = true) :
    vnodeFindChild t' v name = some ((t.node v).childrenNo :: v) := by
  have before : (List.range (t.node v).childrenNo).find? (fun i => (t'.node (i :: v)).begins name) = none := by
    rw [← Option.map_eq_none_iff.mp missing]
    refine List.find?_congr fun i listed => ?_
    rw [Vnode.begins, Vnode.begins, names i (List.mem_range.mp listed)]
  rw [vnodeFindChild, count, List.range_succ, List.find?_append, before, List.find?_singleton, begins]
  rfl

theorem Drivers.copy_begins (w : Drivers) (child : VnodeId) (name : Pstring) (x : Vnode)
    (copied : x.name = some (w.copy child name)) : x.begins name = true := by
  rw [Vnode.begins, copied, Option.any_some, decide_eq_true_iff, memcmp_eq_zero]
  intro i small
  exact (if_pos small).symm

@[simp] theorem Drivers.copy_chars (w : Drivers) (child : VnodeId) (name : Pstring) :
    (w.copy child name).chars = name.chars := by
  refine List.map_congr_left fun i listed => ?_
  exact if_pos (List.mem_range.mp listed)

-- The first of the children below a vnode.
def eldest (v : VnodeId) (j : Nat) : VnodeId := List.replicate j 0 ++ v

theorem eldest_cons (v : VnodeId) (j : Nat) : eldest v (j + 1) = 0 :: eldest v j := rfl

theorem eldest_succ (v : VnodeId) (j : Nat) : eldest v (j + 1) = eldest (0 :: v) j := by
  rw [eldest, eldest, List.replicate_succ', List.append_assoc, List.singleton_append]

/-- A line of children has been made below the vnode, one for each element and qid. -/
structure Grown (w : Drivers) (mount v : VnodeId) (t t' : VnodeTree) (elements : List Pstring) (wqid : List Qid) :
    Prop where
  idCount : t'.idCount = t.idCount
  kept : ∀ u, u ≠ v → ¬ ((t.node v).childrenNo :: v) <:+ u → t'.node u = t.node u
  parent : t'.node v = { t.node v with childrenNo := (t.node v).childrenNo + 1 }
  made : ∀ j e q, elements[j]? = some e → wqid[j]? = some q →
    let child := eldest ((t.node v).childrenNo :: v) j
    t'.node child = ⟨some (w.copy child e), q, some mount, (t.node mount).channelNode,
      if j + 1 < wqid.length then 1 else 0, (t.node v).mqId⟩

theorem not_suffix_of_length {u v : VnodeId} (long : u.length ≤ v.length) (i : Nat) : ¬ (i :: v) <:+ u := fun suffix => by
  have := suffix.length_le
  rw [List.length_cons] at this
  omega

section Loop

variable (w : Drivers) (mount : VnodeId) (t : VnodeTree)

theorem expandLoop_cached (v : VnodeId) (es : List Pstring) (qs : List Qid)
    (short : qs.length ≤ (trail (vnodeFindChild t) v es).length) :
    expandLoop w mount t v es qs = some (.ok, t, ((trail (vnodeFindChild t) v es).take qs.length).getLastD v) := by
  induction qs generalizing v es with
  | nil =>
    rw [expandLoop, List.length_nil, List.take_zero, List.getLastD_nil]
  | cons q qs ih =>
    cases es with
    | nil => exact absurd short (Nat.not_succ_le_zero _)
    | cons e es =>
      rw [trail] at short ⊢
      rw [expandLoop]
      cases found : vnodeFindChild t v e with
      | none =>
        rw [found] at short
        exact absurd short (Nat.not_succ_le_zero _)
      | some child =>
        rw [found] at short
        simp only [List.length_cons, List.take_succ_cons, List.getLastD_cons]
        exact ih child es (Nat.le_of_succ_le_succ short)

theorem expandLoop_drop (v : VnodeId) (es : List Pstring) (qs : List Qid)
    (long : (trail (vnodeFindChild t) v es).length ≤ qs.length) : let T := trail (vnodeFindChild t) v es
    expandLoop w mount t v es qs = expandLoop w mount t (T.getLastD v) (es.drop T.length) (qs.drop T.length) := by
  induction es generalizing v qs with
  | nil => rfl
  | cons e es ih =>
    cases qs with
    | nil =>
      rw [List.eq_nil_of_length_eq_zero (Nat.le_zero.mp long)]
      rfl
    | cons q qs =>
      rw [trail] at long ⊢
      cases found : vnodeFindChild t v e with
      | none => rfl
      | some child =>
        rw [found] at long
        rw [expandLoop, found]
        simp only [List.length_cons, List.getLastD_cons, List.drop_succ_cons]
        exact ih child qs (Nat.le_of_succ_le_succ long)

end Loop

def VnodeTree.grow (w : Drivers) (mount : VnodeId) (t : VnodeTree) (v : VnodeId) (e : Pstring) (q : Qid) : VnodeTree :=
  let child := (t.node v).childrenNo :: v
  (t.update v fun x => { x with childrenNo := x.childrenNo + 1 }).update child fun _ =>
    ⟨some (w.copy child e), q, some mount, (t.node mount).channelNode, 0, (t.node v).mqId⟩

section Grow

variable (w : Drivers) (mount : VnodeId) (t : VnodeTree) (v : VnodeId) (e : Pstring) (q : Qid)

theorem VnodeTree.grow_child : (t.grow w mount v e q).node ((t.node v).childrenNo :: v) =
    ⟨some (w.copy ((t.node v).childrenNo :: v) e), q, some mount, (t.node mount).channelNode, 0, (t.node v).mqId⟩ := by
  rw [grow, VnodeTree.update_self]

theorem VnodeTree.grow_parent : (t.grow w mount v e q).node v =
    { t.node v with childrenNo := (t.node v).childrenNo + 1 } := by
  rw [grow, VnodeTree.update_other _ _ _ (List.cons_ne_self _ v).symm, VnodeTree.update_self]

theorem VnodeTree.grow_other {u : VnodeId} (old : u ≠ v) (other : u ≠ (t.node v).childrenNo :: v) :
    (t.grow w mount v e q).node u = t.node u := by
  rw [grow, VnodeTree.update_other _ _ _ other, VnodeTree.update_other _ _ _ old]

theorem expandLoop_missing (es : List Pstring) (qs : List Qid) (missing : vnodeFindChild t v e = none)
    (t' : VnodeTree) (v' : VnodeId) (made : expandLoop w mount t v (e :: es) (q :: qs) = some (.ok, t', v')) :
    expandLoop w mount (t.grow w mount v e q) ((t.node v).childrenNo :: v) es qs = some (.ok, t', v') := by
  rw [expandLoop, missing] at made
  by_cases room : w.room ((t.node v).childrenNo :: v) = true
  · by_cases copied : w.copied ((t.node v).childrenNo :: v) = true
    · simp only [vnodeAddChild, room, if_true, pstrdup, copied, Option.bind_some] at made
      have channel : ((t.update v fun x => { x with childrenNo := x.childrenNo + 1 }).node mount).channelNode =
          (t.node mount).channelNode := by
        by_cases same : mount = v
        · rw [same, VnodeTree.update_self]
        · rw [VnodeTree.update_other _ _ _ same]
      rwa [channel, VnodeTree.update_self] at made
    · simp only [vnodeAddChild, room, if_true, pstrdup, if_neg copied, Option.bind_none, reduceCtorEq] at made
  · simp only [vnodeAddChild, if_neg room, Option.some.injEq, Prod.mk.injEq, reduceCtorEq, false_and] at made

variable {w mount t v e q} in
theorem Grown.step {t' : VnodeTree} {es : List Pstring} {qs : List Qid} (below : mount <:+ v) (more : qs ≠ [])
    (rest : Grown w mount ((t.node v).childrenNo :: v) (t.grow w mount v e q) t' es qs) :
    Grown w mount v t t' (e :: es) (q :: qs) := by
  have kept := rest.kept
  have parent := rest.parent
  have made := rest.made
  have channel : ((t.grow w mount v e q).node mount).channelNode = (t.node mount).channelNode := by
    by_cases same : mount = v
    · rw [same, VnodeTree.grow_parent]
    · refine congrArg _ (VnodeTree.grow_other _ _ _ _ _ _ same fun is => ?_)
      exact not_suffix_of_length (Nat.le_refl _) _ (is ▸ below)
  rw [VnodeTree.grow_child] at kept parent made
  simp only [Nat.zero_add, channel] at kept parent made
  refine ⟨rest.idCount, fun u old outside => ?_, ?_, ?_⟩
  · have other : u ≠ (t.node v).childrenNo :: v := fun is => outside (is ▸ List.suffix_rfl)
    rw [kept u other fun suffix => outside ((List.suffix_cons _ _).trans suffix), VnodeTree.grow_other _ _ _ _ _ _ old other]
  · rw [kept v (List.cons_ne_self _ v).symm, VnodeTree.grow_parent]
    exact not_suffix_of_length (Nat.le_succ _) 0
  · intro j e' q' element qid
    cases j with
    | zero =>
      obtain rfl := Option.some.inj element
      obtain rfl := Option.some.inj qid
      have long : 0 + 1 < (q :: qs).length := Nat.succ_lt_succ (List.length_pos_iff.mpr more)
      rw [if_pos long]
      exact parent
    | succ j =>
      have place := made j e' q' element qid
      simp only [List.length_cons, Nat.add_lt_add_iff_right, eldest_succ]
      exact place

theorem expandLoop_grown (es : List Pstring) (qs : List Qid) (missing : vnodeFindChild t v e = none) (below : mount <:+ v)
    (t' : VnodeTree) (v' : VnodeId) (made : expandLoop w mount t v (e :: es) (q :: qs) = some (.ok, t', v')) :
    Grown w mount v t t' (e :: es) (q :: qs) ∧ v' = eldest ((t.node v).childrenNo :: v) qs.length := by
  have later := expandLoop_missing w mount t v e q es qs missing t' v' made
  induction qs generalizing t v e es q with
  | nil =>
    rw [expandLoop] at later
    simp only [Option.some.injEq, Prod.mk.injEq, true_and] at later
    obtain ⟨rfl, rfl⟩ := later
    refine ⟨⟨rfl, fun u old outside => ?_, VnodeTree.grow_parent w mount t v e q, fun j e' q' element qid => ?_⟩, rfl⟩
    · exact VnodeTree.grow_other w mount t v e q old fun is => outside (is ▸ List.suffix_rfl)
    · cases j with
      | zero =>
        obtain rfl := Option.some.inj element
        obtain rfl := Option.some.inj qid
        exact VnodeTree.grow_child w mount t v e q
      | succ j => cases qid
  | cons q' qs ih =>
    cases es with
    | nil => cases later
    | cons e' es =>
      have none_ : vnodeFindChild (t.grow w mount v e q) ((t.node v).childrenNo :: v) e' = none := by
        rw [vnodeFindChild, VnodeTree.grow_child]
        rfl
      obtain ⟨grown, rfl⟩ := ih (t.grow w mount v e q) ((t.node v).childrenNo :: v) e' q' es none_
        (below.trans (List.suffix_cons _ v)) later
        (expandLoop_missing w mount _ _ e' q' es qs none_ t' v' later)
      refine ⟨grown.step below (List.cons_ne_nil q' qs), ?_⟩
      rw [VnodeTree.grow_child, List.length_cons, eldest_succ]

end Grow

section Made

variable {w : Drivers} {mount v : VnodeId} {t t' : VnodeTree} {es : List Pstring} {qs : List Qid}
  (grown : Grown w mount v t t' es qs)

include grown

theorem Grown.found (e : Pstring) (element : es[0]? = some e) (more : 0 < qs.length)
    (missing : vnodeFindChild t v e = none) : vnodeFindChild t' v e = some ((t.node v).childrenNo :: v) := by
  refine vnodeFindChild_added missing (by rw [grown.parent]) (fun i small => ?_) ?_
  · refine congrArg _ (grown.kept (i :: v) (List.cons_ne_self i v) fun suffix => ?_)
    have same := List.cons.inj (suffix.eq_of_length rfl)
    omega
  · exact w.copy_begins _ e _ (congrArg Vnode.name (grown.made 0 e qs[0] element (List.getElem?_eq_getElem more)))

theorem Grown.next (j : Nat) (e : Pstring) (element : es[j + 1]? = some e) (more : j + 1 < qs.length)
    (last : es[j]?.isSome) :
    vnodeFindChild t' (eldest ((t.node v).childrenNo :: v) j) e = some (eldest ((t.node v).childrenNo :: v) (j + 1)) := by
  obtain ⟨e', is⟩ := Option.isSome_iff_exists.mp last
  have parent := grown.made j e' qs[j] is (List.getElem?_eq_getElem (Nat.lt_of_succ_lt more))
  have child := grown.made (j + 1) e qs[j + 1] element (List.getElem?_eq_getElem more)
  have below : (0 :: eldest ((t.node v).childrenNo :: v) j) = eldest ((t.node v).childrenNo :: v) (j + 1) := rfl
  have begins := w.copy_begins _ e _ (congrArg Vnode.name child)
  rw [vnodeFindChild, parent, if_pos more, List.range_one, List.find?_singleton, below, begins]
  exact congrArg some below

theorem Grown.last (j : Nat) (e e' : Pstring) (is : es[j]? = some e') (last : j + 1 = qs.length) :
    vnodeFindChild t' (eldest ((t.node v).childrenNo :: v) j) e = none := by
  have parent := grown.made j e' qs[j] is (List.getElem?_eq_getElem (by omega))
  rw [vnodeFindChild, parent, if_neg (by omega)]
  rfl

theorem Grown.trail (short : qs.length ≤ es.length) (more : 0 < qs.length)
    (missing : ∀ e, es[0]? = some e → vnodeFindChild t v e = none) :
    trail (vnodeFindChild t') v es = (List.range qs.length).map (eldest ((t.node v).childrenNo :: v)) := by
  refine trail_eq _ _ v es (by simpa using short) fun j e element => ?_
  rcases Nat.eq_zero_or_pos j with rfl | positive
  · rw [List.take_zero, List.getLastD_nil, grown.found e element more (missing e element)]
    simp [more, eldest]
  · obtain ⟨r, is⟩ : ∃ r, min j qs.length = r + 1 := Nat.exists_eq_succ_of_ne_zero (by omega)
    have bound : r < es.length := by
      have := (List.getElem?_eq_some_iff.mp element).1
      omega
    have known : es[r]? = some es[r] := List.getElem?_eq_getElem bound
    rw [← List.map_take, List.take_range, is, List.range_succ, List.map_append, List.map_singleton, List.getLastD_concat]
    rcases Nat.lt_or_ge (r + 1) qs.length with inside | outside
    · obtain rfl : j = r + 1 := by omega
      rw [grown.next r e element inside (by rw [known, Option.isSome_some])]
      simp [inside]
    · rw [grown.last r e es[r] known (by omega)]
      have past : qs.length ≤ j := by omega
      simp [past]

end Made

@[simp] theorem VnodeTree.setId_idCount (t : VnodeTree) (v : VnodeId) (id : BitVec 32) :
    (t.setId v id).idCount = t.idCount := rfl

theorem VnodeTree.setId_node (t : VnodeTree) (v : VnodeId) (id : BitVec 32) (u : VnodeId) :
    (t.setId v id).node u =
      { t.node u with qid.id := if u = v then id.setWidth 64 else (t.node u).qid.id } := by
  by_cases same : u = v
  · rw [setId, same, VnodeTree.update_self, if_pos rfl]
  · rw [setId, VnodeTree.update_other _ _ _ same, if_neg same]

theorem VnodeTree.setId_find (t : VnodeTree) (v : VnodeId) (id : BitVec 32) :
    vnodeFindChild (t.setId v id) = vnodeFindChild t := by
  funext u e
  refine vnodeFindChild_congr ?_ (fun i _ => ?_) e
  · rw [VnodeTree.setId_node]
  · rw [VnodeTree.setId_node]

-- The vnode that so many qids lead to, be it there or made for them.
def VnodeTree.reached (t : VnodeTree) (mount : VnodeId) (es : List Pstring) (k : Nat) : VnodeId :=
  let T := trail (vnodeFindChild t) mount es
  if k ≤ T.length then (T.take k).getLastD mount
  else eldest ((t.node (T.getLastD mount)).childrenNo :: T.getLastD mount) (k - T.length - 1)

/-- What is left of a call of _expand to which the driver has answered with `qs`, before the new fid is set. -/
def Extended (w : Drivers) (mount : VnodeId) (t mid : VnodeTree) (es : List Pstring) (qs : List Qid) : Prop :=
  let T := trail (vnodeFindChild t) mount es
  if qs.length ≤ T.length then mid = t else Grown w mount (T.getLastD mount) t mid (es.drop T.length) (qs.drop T.length)

theorem expandLoop_short (w : Drivers) (mount : VnodeId) (t : VnodeTree) (v : VnodeId) (es : List Pstring)
    (qs : List Qid) (t' : VnodeTree) (v' : VnodeId) (made : expandLoop w mount t v es qs = some (.ok, t', v')) :
    qs.length ≤ es.length := by
  induction qs generalizing t v es with
  | nil => exact Nat.zero_le _
  | cons q qs ih =>
    cases es with
    | nil => cases made
    | cons e es =>
      cases found : vnodeFindChild t v e with
      | none =>
        have later := expandLoop_missing w mount t v e q es qs found t' v' made
        exact Nat.succ_le_succ (ih _ _ es later)
      | some child =>
        rw [expandLoop, found] at made
        exact Nat.succ_le_succ (ih t child es made)

theorem expandLoop_extended (w : Drivers) (mount : VnodeId) (t : VnodeTree) (es : List Pstring) (qs : List Qid)
    (t' : VnodeTree) (v' : VnodeId) (made : expandLoop w mount t mount es qs = some (.ok, t', v')) :
    Extended w mount t t' es qs ∧ v' = t.reached mount es qs.length := by
  rw [Extended, VnodeTree.reached]
  have short := expandLoop_short w mount t mount es qs t' v' made
  by_cases cached : qs.length ≤ (trail (vnodeFindChild t) mount es).length
  · rw [expandLoop_cached w mount t mount es qs cached] at made
    simp only [Option.some.injEq, Prod.mk.injEq, true_and] at made
    simp only [cached, if_true]
    exact ⟨made.1.symm, made.2.symm⟩
  · simp only [cached, if_false]
    rw [expandLoop_drop w mount t mount es qs (Nat.le_of_not_le cached)] at made
    have inside : (trail (vnodeFindChild t) mount es).length < es.length := by omega
    rw [List.drop_eq_getElem_cons inside, List.drop_eq_getElem_cons (Nat.lt_of_not_le cached)] at made ⊢
    have missing := trail_missing (vnodeFindChild t) mount es _ (List.getElem?_eq_getElem inside)
    obtain ⟨grown, rfl⟩ := expandLoop_grown w mount t _ _ _ _ _ missing (trail_suffix (vnodeFindChild_descends t) mount es) t' v' made
    refine ⟨grown, ?_⟩
    rw [List.length_drop, Nat.sub_sub]

theorem expand_ok {w : Drivers} {t t' : VnodeTree} {mount : VnodeId} {es : List Pstring}
    (ok : expand w t mount es = some (.ok, t')) : ∃ qs mid,
      w.reply t mount (t.request mount es) = some (some qs) ∧ qs.length ≤ es.length ∧
      Extended w mount { t with idCount := t.idCount + 1 } mid es qs ∧
      t' = mid.setId (t.reached mount es qs.length) t.idCount := by
  obtain ⟨answer, reply, made⟩ := Option.bind_eq_some_iff.mp ok
  cases answer with
  | none => cases made
  | some qs =>
    obtain ⟨⟨err, mid, v⟩, looped, is⟩ := Option.map_eq_some_iff.mp made
    obtain ⟨rfl, rfl⟩ := Prod.mk.inj is
    obtain ⟨extended, rfl⟩ := expandLoop_extended w mount _ es qs mid v looped
    exact ⟨qs, mid, reply, expandLoop_short w mount _ mount es qs mid _ looped, extended, rfl⟩

-- There is memory for the children, and for their names.
def Drivers.Ample (w : Drivers) : Prop := ∀ v, w.room v = true ∧ w.copied v = true

theorem expandLoop_ample {w : Drivers} (ample : w.Ample) (mount : VnodeId) (t : VnodeTree) (v : VnodeId)
    (es : List Pstring) (qs : List Qid) (short : qs.length ≤ es.length) :
    ∃ t' v', expandLoop w mount t v es qs = some (.ok, t', v') := by
  induction qs generalizing t v es with
  | nil => exact ⟨t, v, by rw [expandLoop]⟩
  | cons q qs ih =>
    cases es with
    | nil => exact absurd short (Nat.not_succ_le_zero _)
    | cons e es =>
      rw [expandLoop]
      cases found : vnodeFindChild t v e with
      | none =>
        simp only [vnodeAddChild, pstrdup, (ample _).1, (ample _).2, if_true, Option.bind_some]
        exact ih _ _ es (Nat.le_of_succ_le_succ short)
      | some child => exact ih t child es (Nat.le_of_succ_le_succ short)

theorem expand_ample {w : Drivers} (ample : w.Ample) (t : VnodeTree) (mount : VnodeId) (es : List Pstring)
    (qs : List Qid) (reply : w.reply t mount (t.request mount es) = some (some qs)) (short : qs.length ≤ es.length) :
    ∃ t', expand w t mount es = some (.ok, t') := by
  obtain ⟨t', v', made⟩ := expandLoop_ample ample mount { t with idCount := t.idCount + 1 } mount es qs short
  exact ⟨t'.setId v' t.idCount, by simp only [expand, reply, Option.bind_some, made, Option.map_some, if_true]⟩

theorem VnodeTree.reached_length (t : VnodeTree) (mount : VnodeId) (es : List Pstring) (k : Nat) :
    (t.reached mount es k).length = mount.length + k := by
  simp only [reached]
  split
  · next cached => exact trail_take_length (vnodeFindChild_descends t) mount es k cached
  · next made =>
    rw [eldest, List.length_append, List.length_replicate, List.length_cons, trail_last_length (vnodeFindChild_descends t)]
    omega

theorem VnodeTree.reached_eq_mount (t : VnodeTree) (mount : VnodeId) (es : List Pstring) (k : Nat) :
    t.reached mount es k = mount ↔ k = 0 := by
  constructor
  · intro is
    have := t.reached_length mount es k
    rw [is] at this
    omega
  · rintro rfl
    rfl

section Extended

variable {w : Drivers} {mount : VnodeId} {t mid : VnodeTree} {es : List Pstring} {qs : List Qid}
  (extended : Extended w mount t mid es qs)

include extended

theorem Extended.idCount : mid.idCount = t.idCount := by
  rw [Extended] at extended
  split at extended
  · rw [extended]
  · exact extended.idCount

-- A vnode that is no deeper than where the tree is extended keeps all but the number of its children.
theorem Extended.old (u : VnodeId) (upper : u.length ≤ mount.length + (trail (vnodeFindChild t) mount es).length) :
    mid.node u = { t.node u with childrenNo := (mid.node u).childrenNo } := by
  rw [Extended] at extended
  split at extended
  · rw [extended]
  · rw [← trail_last_length (vnodeFindChild_descends t)] at upper
    by_cases same : u = (trail (vnodeFindChild t) mount es).getLastD mount
    · rw [same, extended.parent]
    · rw [extended.kept u same (not_suffix_of_length upper _)]

theorem Extended.upper (u : VnodeId) (upper : u.length < mount.length + (trail (vnodeFindChild t) mount es).length) :
    mid.node u = t.node u := by
  rw [Extended] at extended
  split at extended
  · rw [extended]
  · rw [← trail_last_length (vnodeFindChild_descends t)] at upper
    exact extended.kept u (fun is => by rw [is] at upper; omega) (not_suffix_of_length upper.le _)

theorem Extended.find_upper (u : VnodeId) (e : Pstring)
    (upper : u.length < mount.length + (trail (vnodeFindChild t) mount es).length) :
    vnodeFindChild mid u e = vnodeFindChild t u e := by
  refine vnodeFindChild_congr (by rw [extended.upper u upper]) (fun i _ => ?_) e
  rw [extended.old (i :: u) upper]

/-- The elements now lead as far as before, and from there to a vnode for each further qid. -/
theorem Extended.trail (short : qs.length ≤ es.length) : ∃ new,
    trail (vnodeFindChild mid) ((trail (vnodeFindChild t) mount es).getLastD mount)
      (es.drop (trail (vnodeFindChild t) mount es).length) = new ∧
    trail (vnodeFindChild mid) mount es = trail (vnodeFindChild t) mount es ++ new ∧
    new.length = qs.length - (trail (vnodeFindChild t) mount es).length ∧
    ∀ u, u ∈ new → (mid.node u).mountNode = some mount := by
  have split := trail_keep (vnodeFindChild_descends t) (vnodeFindChild mid) mount es extended.find_upper
  refine ⟨_, rfl, split, ?_⟩
  rw [Extended] at extended
  split at extended
  · next cached =>
    rw [extended, trail_stop]
    exact ⟨(Nat.sub_eq_zero_of_le cached).symm, fun u member => absurd member List.not_mem_nil⟩
  · next longer =>
    have more : 0 < (qs.drop (Anthill.trail (vnodeFindChild t) mount es).length).length := by
      rw [List.length_drop]
      omega
    have fits : (qs.drop (Anthill.trail (vnodeFindChild t) mount es).length).length ≤
        (es.drop (Anthill.trail (vnodeFindChild t) mount es).length).length := by
      rw [List.length_drop, List.length_drop]
      omega
    rw [extended.trail fits more fun e element => trail_missing _ mount es e (by rwa [List.getElem?_drop] at element)]
    refine ⟨by rw [List.length_map, List.length_range, List.length_drop], fun u member => ?_⟩
    obtain ⟨j, listed, rfl⟩ := List.mem_map.mp member
    have small := List.mem_range.mp listed
    rw [extended.made j _ _ (List.getElem?_eq_getElem (small.trans_le fits)) (List.getElem?_eq_getElem small)]

end Extended

end Anthill
