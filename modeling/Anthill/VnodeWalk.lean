import Anthill.VnodeScan

set_option autoImplicit false

namespace Anthill

-- The names on the way to a vnode.
def VnodeTree.pathOf (t : VnodeTree) : VnodeId → List (Option (List Byte))
  | [] => []
  | i :: v => t.pathOf v ++ [(t.node (i :: v)).name.map Pstring.chars]

theorem VnodeTree.pathOf_length (t : VnodeTree) (v : VnodeId) : (t.pathOf v).length = v.length := by
  induction v with
  | nil => rfl
  | cons i v ih => rw [pathOf, List.length_append, ih, List.length_singleton, List.length_cons]

theorem VnodeTree.pathOf_get (t : VnodeTree) {v : VnodeId} {j : Nat} (small : j < v.length) :
    (t.pathOf v)[j]? = some ((t.node (ancestor v (j + 1))).name.map Pstring.chars) := by
  induction v with
  | nil => exact absurd small (Nat.not_lt_zero j)
  | cons i v ih =>
    have long := t.pathOf_length v
    rw [pathOf]
    rcases Nat.lt_succ_iff_lt_or_eq.mp small with earlier | rfl
    · rw [List.getElem?_append_left (by rwa [long]), ih earlier, ancestor_trans (List.suffix_cons i v) earlier]
    · rw [List.getElem?_append_right long.le, long, Nat.sub_self, List.getElem?_cons_zero]
      congr
      exact (ancestor_of_suffix (u := i :: v) List.suffix_rfl).symm

theorem VnodeTree.pathOf_congr {t t' : VnodeTree} (v : VnodeId)
    (same : ∀ u, u <:+ v → (t'.node u).name = (t.node u).name) : t'.pathOf v = t.pathOf v := by
  induction v with
  | nil => rfl
  | cons i v ih =>
    rw [pathOf, pathOf, same (i :: v) List.suffix_rfl, ih fun u above => same u (above.trans (List.suffix_cons i v))]

theorem VnodeTree.pathOf_eq_iff (t : VnodeTree) (v : VnodeId) (path : List Pstring) :
    t.pathOf v = path.map (fun e => some e.chars) ↔ v.length = path.length ∧
      ∀ j e, path[j]? = some e → (t.node (ancestor v (j + 1))).name.map Pstring.chars = some e.chars := by
  constructor
  · intro is
    have long := congrArg List.length is
    rw [t.pathOf_length, List.length_map] at long
    refine ⟨long, fun j e element => ?_⟩
    have small : j < v.length := long ▸ (List.getElem?_eq_some_iff.mp element).1
    have known := t.pathOf_get small
    rw [is, List.getElem?_map, element] at known
    exact (Option.some.inj known).symm
  · rintro ⟨long, names⟩
    refine List.ext_getElem? fun j => ?_
    rcases Nat.lt_or_ge j v.length with small | past
    · have inside : j < path.length := long ▸ small
      rw [t.pathOf_get small, names j path[j] (List.getElem?_eq_getElem inside), List.getElem?_map,
        List.getElem?_eq_getElem inside]
      rfl
    · rw [List.getElem?_eq_none (by rwa [t.pathOf_length]), List.getElem?_eq_none (by rwa [List.length_map, ← long])]

theorem exactChild_child {t : VnodeTree} {v child : VnodeId} {name : Pstring}
    (found : exactChild t v name = some child) :
    ∃ i, i < (t.node v).childrenNo ∧ child = i :: v ∧ (t.node child).name.map Pstring.chars = some name.chars := by
  obtain ⟨i, first, rfl⟩ := Option.map_eq_some_iff.mp found
  have named := (List.find?_eq_some_iff_append.mp first).1
  refine ⟨i, List.mem_range.mp (List.mem_of_find?_eq_some first), rfl, ?_⟩
  cases is : (t.node (i :: v)).name with
  | none => simp [is] at named
  | some s =>
    rw [is, Option.any_some, decide_eq_true_iff] at named
    exact congrArg some named

theorem Pstring.getElem_chars (s : Pstring) (i : Nat) (small : i < s.len.toNat) : s.chars[i]? = some (s.s i) := by
  simp [chars, small]

-- What has the name begins with it.
theorem Vnode.begins_of_name {x : Vnode} {name : Pstring} (named : x.name.map Pstring.chars = some name.chars) :
    x.begins name = true := by
  obtain ⟨s, is, same⟩ := Option.map_eq_some_iff.mp named
  rw [begins, is, Option.any_some, decide_eq_true_iff, memcmp_eq_zero]
  intro i small
  have long := congrArg List.length same
  simp only [Pstring.chars, List.length_map, List.length_range] at long
  have both := (s.getElem_chars i (by rwa [long])).symm.trans ((congrArg (·[i]?) same).trans (name.getElem_chars i small))
  exact (Option.some.inj both).symm

-- No two children have one name.
def VnodeTree.DistinctAt (t : VnodeTree) (v : VnodeId) : Prop := ∀ i j chars, i < (t.node v).childrenNo →
  j < (t.node v).childrenNo → (t.node (i :: v)).name.map Pstring.chars = some chars →
  (t.node (j :: v)).name.map Pstring.chars = some chars → i = j

theorem exactChild_of_name {t : VnodeTree} {v : VnodeId} {e : Pstring} (distinct : t.DistinctAt v) {i : Nat}
    (small : i < (t.node v).childrenNo) (named : (t.node (i :: v)).name.map Pstring.chars = some e.chars) :
    exactChild t v e = some (i :: v) := by
  have some_ : exactChild t v e ≠ none := by
    intro absent
    have all := List.find?_eq_none.mp (Option.map_eq_none_iff.mp absent) i (List.mem_range.mpr small)
    obtain ⟨s, is, same⟩ := Option.map_eq_some_iff.mp named
    rw [is, Option.any_some] at all
    exact all (decide_eq_true same)
  obtain ⟨child, found⟩ := Option.ne_none_iff_exists'.mp some_
  obtain ⟨j, inside, rfl, same⟩ := exactChild_child found
  rw [found, distinct j i e.chars inside small same named]

theorem exactChild_none {t : VnodeTree} {v : VnodeId} {e : Pstring} (absent : vnodeFindChild t v e = none) :
    exactChild t v e = none := by
  by_contra some_
  obtain ⟨child, found⟩ := Option.ne_none_iff_exists'.mp some_
  obtain ⟨i, small, rfl, named⟩ := exactChild_child found
  have all := List.find?_eq_none.mp (Option.map_eq_none_iff.mp absent) i (List.mem_range.mpr small)
  exact all (Vnode.begins_of_name named)

theorem exact_names (t : VnodeTree) (v : VnodeId) (es : List Pstring) (j : Nat) (u : VnodeId) (e : Pstring)
    (on : (trail (exactChild t) v es)[j]? = some u) (element : es[j]? = some e) :
    (t.node u).name.map Pstring.chars = some e.chars := by
  induction es generalizing v j with
  | nil => cases element
  | cons e' es ih =>
    cases found : exactChild t v e' with
    | none =>
      rw [trail_none found] at on
      cases on
    | some child =>
      rw [trail_some found] at on
      cases j with
      | zero =>
        obtain rfl := Option.some.inj on
        obtain rfl := Option.some.inj element
        obtain ⟨_, -, -, named⟩ := exactChild_child found
        exact named
      | succ j => exact ih child j on element

-- Where the lookup comes upon the right names only, it is the exact one.
theorem trail_exact (t : VnodeTree) (v : VnodeId) (es : List Pstring)
    (distinct : ∀ u, u ∈ v :: trail (vnodeFindChild t) v es → t.DistinctAt u)
    (names : ∀ (j : Nat) (u : VnodeId) (e : Pstring), (trail (vnodeFindChild t) v es)[j]? = some u → es[j]? = some e →
      (t.node u).name.map Pstring.chars = some e.chars) :
    trail (exactChild t) v es = trail (vnodeFindChild t) v es := by
  induction es generalizing v with
  | nil => rfl
  | cons e es ih =>
    cases found : vnodeFindChild t v e with
    | none => rw [trail_none found, trail_none (exactChild_none found)]
    | some child =>
      rw [trail_some found] at distinct names ⊢
      obtain ⟨i, small, rfl, -⟩ := vnodeFindChild_child found
      have named := names 0 (i :: v) e rfl rfl
      rw [trail_some (exactChild_of_name (distinct v List.mem_cons_self) small named)]
      exact congrArg _ (ih (i :: v) (fun u member => distinct u (List.mem_cons_of_mem v member))
        fun j u e' on element => names (j + 1) u e' on element)

theorem trail_ancestor {find : VnodeId → Pstring → Option VnodeId} (descends : Descends find) (v : VnodeId)
    (es : List Pstring) (j : Nat) (small : j < (trail find v es).length) :
    (trail find v es)[j]? = some (ancestor ((trail find v es).getLastD v) (v.length + j + 1)) := by
  induction es generalizing v j with
  | nil => exact absurd small (Nat.not_lt_zero j)
  | cons e es ih =>
    cases found : find v e with
    | none =>
      rw [trail_none found] at small
      exact absurd small (Nat.not_lt_zero j)
    | some child =>
      rw [trail_some found] at small ⊢
      rw [List.getLastD_cons]
      obtain ⟨i, rfl⟩ := descends v e child found
      cases j with
      | zero => exact congrArg some (ancestor_of_suffix (trail_suffix descends (i :: v) es)).symm
      | succ j =>
        refine (ih (i :: v) j (Nat.lt_of_succ_lt_succ small)).trans ?_
        rw [List.length_cons, Nat.add_right_comm v.length 1 j, Nat.add_assoc v.length j 1]

theorem VnodeTree.reached_cached (t : VnodeTree) (mount : VnodeId) (es : List Pstring) (k : Nat)
    (cached : k ≤ (trail (vnodeFindChild t) mount es).length) : t.reached mount es k =
      ancestor ((trail (vnodeFindChild t) mount es).getLastD mount) (mount.length + k) := by
  rw [reached, if_pos cached]
  cases k with
  | zero => exact (ancestor_of_suffix (trail_suffix (vnodeFindChild_descends t) mount es)).symm
  | succ k =>
    have on := trail_ancestor (vnodeFindChild_descends t) mount es k cached
    rw [List.getElem?_eq_getElem cached] at on
    rw [List.take_succ_eq_append_getElem cached, List.getLastD_concat]
    exact Option.some.inj on

/-- What vnode_scan is to give for a path whose elements all exist. -/
def Scanned.Walked (r : Scanned) (path : List Pstring) : Prop :=
  r.count = path.length ∧ ∃ v, r.node = some v ∧ r.tree.pathOf v = path.map (fun e => some e.chars) ∧
    ∀ i, i < path.length → r.wqid[i]? = some (r.tree.node (ancestor v (i + 1))).qid

def WalkGives (w : Drivers) (t : VnodeTree) (path : List Pstring) : Prop :=
  ∃ r : Scanned, r.Walked path ∧ ∃ k, ∀ fuel, k ≤ fuel → vnodeScan w path fuel t = some r

-- Each vnode had the qid that the one below it has in the end.
def Shifted (n : Nat) (before after : Nat → Qid) : Prop := ∀ i, i < n → before i = after (i + 1)

theorem shifted_congr {n : Nat} {before after after' : Nat → Qid} (same : ∀ j, j ≤ n → after j = after' j) :
    Shifted n before after ↔ Shifted n before after' :=
  forall₂_congr fun i small => by rw [same (i + 1) small]

-- The qids on the way after a driver's answer.
def answered (qids : Nat → Qid) (index : Nat) (newFid : BitVec 32) : Option (List Qid) → Nat → Qid
  | none, depth => qids depth
  | some qs, depth => { qids depth with
      id := if depth = index + qs.length then newFid.setWidth 64 else (qids depth).id }

/-- The qids are right at the end of the walk, where a last vnode without a fid is looked up once more. -/
def Closes (n index : Nat) (newFid : BitVec 32) (qids : Nat → Qid) (reply : Option (Option (List Qid))) : Prop :=
  if (qids n).id = nofid.setWidth 64 then ∃ answer, reply = some answer ∧ Shifted n qids (answered qids index newFid answer)
  else Shifted n qids qids

structure Arrived (t : VnodeTree) (path : List Pstring) (s : Walking) (mount : VnodeId) (index : Nat) : Prop
    extends AtVnode t path s mount index where
  all : s.i = path.length
  under : s.mount = some (mount, index)

section Finish

variable {w : Drivers} (ample : w.Ample) (modest : w.Modest) {path : List Pstring} {t : VnodeTree} {s : Walking}
  {mount : VnodeId} {index : Nat} (arrived : Arrived t path s mount index) (noted : s.Noted t)

include arrived noted

theorem Arrived.walked_iff (t' : VnodeTree) :
    (Scanned.mk t' path.length s.wqid (some s.vnode)).Walked path ↔
      t'.pathOf s.vnode = path.map (fun e => some e.chars) ∧
      Shifted path.length (fun j => (t.node (ancestor s.vnode j)).qid) fun j => (t'.node (ancestor s.vnode j)).qid := by
  have qids := noted.qids
  rw [arrived.all] at qids
  constructor
  · rintro ⟨-, v, is, path_, right⟩
    obtain rfl := Option.some.inj is
    refine ⟨path_, fun i small => ?_⟩
    exact Option.some.inj ((qids i small).symm.trans (right i small))
  · rintro ⟨path_, shifted⟩
    refine ⟨rfl, s.vnode, rfl, path_, fun i small => ?_⟩
    exact (qids i small).trans (congrArg some (shifted i small))

include ample modest

omit noted in
theorem Arrived.expanded {qs : List Qid}
    (reply : w.reply t mount (t.request mount (path.drop index)) = some (some qs)) :
    ∃ t', expand w t mount (path.drop index) = some (.ok, t') ∧ (∀ u, (t'.node u).name = (t.node u).name) ∧
      ∀ j, j ≤ path.length → (t'.node (ancestor s.vnode j)).qid =
        answered (fun j => (t.node (ancestor s.vnode j)).qid) index t.idCount (some qs) j := by
  obtain ⟨-, is⟩ := Drivers.reply_answers mount t _ arrived.top reply
  have short := modest.answer is
  rw [List.length_map] at short
  obtain ⟨t', ok⟩ := expand_ample ample t mount (path.drop index) qs reply short
  obtain ⟨qs', mid, reply', -, extended, is'⟩ := expand_ok ok
  obtain rfl : qs = qs' := Option.some.inj (Option.some.inj (reply.symm.trans reply'))
  have after := arrived.after
  have depth := arrived.level
  rw [List.length_drop] at short
  rw [arrived.all] at after depth
  have cached : qs.length ≤ (trail (vnodeFindChild t) mount (path.drop index)).length := by omega
  have node : mid.node = t.node := by
    rw [Extended] at extended
    change if qs.length ≤ (trail (vnodeFindChild t) mount (path.drop index)).length then _ else _ at extended
    rw [if_pos cached] at extended
    rw [extended]
  have reached := t.reached_cached mount (path.drop index) qs.length cached
  rw [arrived.last, arrived.depth] at reached
  refine ⟨t', ok, fun u => ?_, fun j small => ?_⟩
  · rw [is', VnodeTree.setId_node, node]
  · have places : ancestor s.vnode j = ancestor s.vnode (index + qs.length) ↔ j = index + qs.length := by
      refine ⟨fun same => ?_, fun same => same ▸ rfl⟩
      have lengths := congrArg List.length same
      rwa [ancestor_length (by omega), ancestor_length (by omega)] at lengths
    rw [is', VnodeTree.setId_node, node, reached]
    simp only [answered, places]

theorem Arrived.finish_iff (named : t.pathOf s.vnode = path.map (fun e => some e.chars)) :
    (∃ r : Scanned, s.finish w path t = some r ∧ r.Walked path) ↔
      Closes path.length index t.idCount (fun j => (t.node (ancestor s.vnode j)).qid)
        (w.reply t mount (t.request mount (path.drop index))) := by
  have last : ancestor s.vnode path.length = s.vnode := by
    rw [← arrived.all, ← noted.depth]
    exact ancestor_of_suffix List.suffix_rfl
  rw [Closes, last, Walking.finish]
  split
  · next none_ =>
    simp only [arrived.under, Option.bind_some]
    cases reply : w.reply t mount (t.request mount (path.drop index)) with
    | none =>
      rw [expand, reply]
      constructor
      · rintro ⟨r, is, -⟩
        cases is
      · rintro ⟨answer, is, -⟩
        cases is
    | some answer =>
      cases answer with
      | none =>
        have same := arrived.walked_iff noted { t with idCount := t.idCount + 1 }
        have named' : ({ t with idCount := t.idCount + 1 } : VnodeTree).pathOf s.vnode = t.pathOf s.vnode :=
          VnodeTree.pathOf_congr _ fun u _ => rfl
        rw [expand, reply]
        constructor
        · rintro ⟨r, is, walked⟩
          obtain rfl := Option.some.inj is
          exact ⟨none, rfl, (same.mp walked).2⟩
        · rintro ⟨answer, is, shifted⟩
          obtain rfl := Option.some.inj is
          exact ⟨_, rfl, same.mpr ⟨named'.trans named, shifted⟩⟩
      | some qs =>
        obtain ⟨t', ok, named', after⟩ := arrived.expanded ample modest reply
        have same := arrived.walked_iff noted t'
        rw [VnodeTree.pathOf_congr _ fun u _ => named' u, and_iff_right named, shifted_congr after] at same
        rw [ok]
        constructor
        · rintro ⟨r, is, walked⟩
          obtain rfl := Option.some.inj is
          exact ⟨some qs, rfl, same.mp walked⟩
        · rintro ⟨answer, is, shifted⟩
          obtain rfl := Option.some.inj is
          exact ⟨_, rfl, same.mpr shifted⟩
  · next some_ =>
    rw [← arrived.walked_iff noted t |>.trans (and_iff_right named)]
    constructor
    · rintro ⟨r, is, walked⟩
      obtain rfl := Option.some.inj is
      exact walked
    · exact fun walked => ⟨_, rfl, walked⟩

omit noted in
theorem Arrived.finish_keeps {r : Scanned} (ends : s.finish w path t = some r) :
    r.node = some s.vnode ∧ ∀ u, (r.tree.node u).name = (t.node u).name := by
  rw [Walking.finish] at ends
  split at ends
  · simp only [arrived.under, Option.bind_some] at ends
    cases reply : w.reply t mount (t.request mount (path.drop index)) with
    | none =>
      rw [expand, reply] at ends
      cases ends
    | some answer =>
      cases answer with
      | none =>
        rw [expand, reply] at ends
        obtain rfl := Option.some.inj ends
        exact ⟨rfl, fun u => rfl⟩
      | some qs =>
        obtain ⟨t', ok, names, -⟩ := arrived.expanded ample modest reply
        rw [ok] at ends
        obtain rfl := Option.some.inj ends
        exact ⟨rfl, names⟩
  · obtain rfl := Option.some.inj ends
    exact ⟨rfl, fun u => rfl⟩

omit arrived noted in
-- What is walked past stays in the path, with its name.
theorem scanLoop_keeps (fuel : Nat) (missing : Missing t path s mount index) {r : Scanned} {v : VnodeId}
    (ends : scanLoop w path fuel t s = some r) (node : r.node = some v) :
    s.vnode <:+ v ∧ ∀ u : VnodeId, u.length ≤ s.vnode.length → (r.tree.node u).name = (t.node u).name := by
  induction fuel using Nat.strong_induction_on generalizing t s with
  | _ fuel ih =>
    cases fuel with
    | zero => cases ends
    | succ fuel =>
      rw [missing.asks] at ends
      obtain ⟨⟨err, t'⟩, made, ends⟩ := Option.bind_eq_some_iff.mp ends
      by_cases ok : err = .ok
      · subst ok
        obtain ⟨qs, s', -, short, ahead⟩ := missing.ahead made
        simp only [if_true, ahead.scan] at ends
        have place := ahead.i
        have inside := missing.inside
        have after := missing.after
        have further : s'.vnode <:+ v ∧ ∀ u : VnodeId, u.length ≤ s'.vnode.length →
            (r.tree.node u).name = (t'.node u).name := by
          rcases Nat.lt_or_ge s'.i path.length with more | all
          · exact ih _ (by omega) (ahead.missing more) ends
          · cases rest : fuel - (s'.i - s.i) with
            | zero =>
              rw [rest] at ends
              cases ends
            | succ fuel =>
              rw [rest, scanLoop_finish path all] at ends
              have arrived : Arrived t' path s' mount index := ⟨ahead.placed, by omega, ahead.under (by omega)⟩
              obtain ⟨is, names⟩ := arrived.finish_keeps ample modest ends
              obtain rfl : s'.vnode = v := Option.some.inj (is.symm.trans node)
              exact ⟨List.suffix_rfl, fun u _ => names u⟩
        refine ⟨ahead.below.trans further.1, fun u upper => ?_⟩
        rw [further.2 u (upper.trans ahead.below.length_le), ahead.names u upper]
      · simp only [if_neg ok] at ends
        obtain rfl := Option.some.inj ends
        cases node

end Finish

def VnodeTree.Present (t : VnodeTree) : VnodeId → Prop
  | [] => True
  | i :: v => t.Present v ∧ i < (t.node v).childrenNo

def VnodeTree.Distinct (t : VnodeTree) : Prop := ∀ v, t.Present v → t.DistinctAt v

theorem trail_present (t : VnodeTree) (v : VnodeId) (es : List Pstring) (present : t.Present v) (u : VnodeId)
    (member : u ∈ v :: trail (vnodeFindChild t) v es) : t.Present u := by
  induction es generalizing v with
  | nil =>
    obtain rfl := List.mem_singleton.mp member
    exact present
  | cons e es ih =>
    rcases List.mem_cons.mp member with rfl | below
    · exact present
    · cases found : vnodeFindChild t v e with
      | none =>
        rw [trail_none found] at below
        cases below
      | some child =>
        rw [trail_some found] at below
        obtain ⟨i, small, rfl, -⟩ := vnodeFindChild_child found
        exact ih (i :: v) ⟨present, small⟩ below

theorem vnodeScan_trail (w : Drivers) (path : List Pstring) (t : VnodeTree) (fuel : Nat) :
    let T := trail (vnodeFindChild t) [] path
    vnodeScan w path fuel t = scanLoop w path (fuel - T.length) t (Walking.start.along t T) :=
  scanLoop_along w path t Walking.start fuel

theorem start_arrived {t : VnodeTree} {path : List Pstring} {mount : VnodeId} {index : Nat} :
    let T := trail (vnodeFindChild t) [] path
    T.length = path.length → lastMount t (([] :: T).take T.length) = some (mount, index) →
      Arrived t path (Walking.start.along t T) mount index := by
  intro T all last
  obtain ⟨on, top⟩ := lastMount_some last
  have small : index < T.length := by
    have := (List.getElem?_eq_some_iff.mp on).1
    rw [List.length_take, List.length_cons] at this
    omega
  rw [List.getElem?_take_of_lt small] at on
  have place : (Walking.start.along t T).i = T.length := (Walking.along_i t Walking.start T).trans (Nat.zero_add _)
  exact ⟨Walking.at_start on top, place.trans all, (Walking.start_mount t T).2.trans last⟩

theorem lastMount_before {t : VnodeTree} (rooted : (t.node []).mountNode = none) (vs : List VnodeId) (some_ : vs ≠ []) :
    ∃ mount index, lastMount t (([] :: vs).take vs.length) = some (mount, index) := by
  obtain ⟨n, long⟩ := Nat.exists_eq_succ_of_ne_zero (List.length_pos_iff.mpr some_).ne'
  rw [long, List.take_succ_cons]
  exact lastMount_root t rooted _

-- The walk is the exact one if what it gives is right.
theorem walked_exact {w : Drivers} (ample : w.Ample) (modest : w.Modest) {t : VnodeTree}
    (rooted : (t.node []).mountNode = none) (distinct : t.Distinct) {path : List Pstring} (some_ : path ≠ [])
    {fuel : Nat} {r : Scanned} (ends : vnodeScan w path fuel t = some r) (walked : r.Walked path) :
    trail (exactChild t) [] path = trail (vnodeFindChild t) [] path := by
  obtain ⟨-, v, node, path_, -⟩ := walked
  have long := trail_length_le (vnodeFindChild t) [] path
  have lasts := Walking.along_vnode t Walking.start (trail (vnodeFindChild t) [] path)
  have depth := trail_last_length (vnodeFindChild_descends t) [] path
  rw [List.length_nil, Nat.zero_add] at depth
  have keeps : (trail (vnodeFindChild t) [] path).getLastD [] <:+ v ∧
      ∀ u : VnodeId, u.length ≤ (trail (vnodeFindChild t) [] path).length → (r.tree.node u).name = (t.node u).name := by
    rw [vnodeScan_trail] at ends
    rcases Nat.lt_or_ge (trail (vnodeFindChild t) [] path).length path.length with fewer | all
    · obtain ⟨mount, index, last⟩ := lastMount_root t rooted (trail (vnodeFindChild t) [] path)
      have kept := scanLoop_keeps ample modest _ (Walking.missing_start fewer last) ends node
      rw [lasts] at kept
      rwa [show Walking.start.vnode = [] from rfl, depth] at kept
    · have whole := Nat.le_antisymm long all
      have more : trail (vnodeFindChild t) [] path ≠ [] := fun none_ => by
        rw [none_] at whole
        exact some_ (List.length_eq_zero_iff.mp whole.symm)
      obtain ⟨mount, index, last⟩ := lastMount_before rooted _ more
      have arrived := start_arrived whole last
      cases rest : fuel - (trail (vnodeFindChild t) [] path).length with
      | zero =>
        rw [rest] at ends
        cases ends
      | succ fuel =>
        rw [rest, scanLoop_finish path arrived.all.ge] at ends
        obtain ⟨is, names⟩ := arrived.finish_keeps ample modest ends
        obtain rfl := Option.some.inj (is.symm.trans node)
        rw [lasts]
        exact ⟨List.suffix_rfl, fun u _ => names u⟩
  obtain ⟨-, named⟩ := (r.tree.pathOf_eq_iff v path).mp path_
  refine trail_exact t [] path (fun u member => distinct u (trail_present t [] path trivial u member)) ?_
  intro j u e on element
  have small := (List.getElem?_eq_some_iff.mp on).1
  have at_ := trail_ancestor (vnodeFindChild_descends t) [] path j small
  rw [List.length_nil, Nat.zero_add] at at_
  obtain rfl : u = _ := Option.some.inj (on.symm.trans at_)
  have above := named j e element
  rwa [ancestor_trans keeps.1 (by omega), keeps.2 _ (by rw [ancestor_length (by omega)]; omega)] at above

def AllExist (w : Drivers) (t : VnodeTree) (path : List Pstring) : Prop :=
  let T := trail (exactChild t) [] path
  T.length = path.length ∨ ∃ mount index qs, lastMount t ([] :: T) = some (mount, index) ∧
    w.reply t mount (t.request mount (path.drop index)) = some (some qs) ∧ qs.length = path.length - index

-- The qids on the way when the vnodes that were not there have been made.
def madeQids (there : Nat → Qid) (known n index : Nat) (newFid : BitVec 32) (qs : List Qid) (depth : Nat) : Qid :=
  if depth ≤ known then there depth
  else { qs.getD (depth - index - 1) default with
    id := if depth = n then newFid.setWidth 64 else (qs.getD (depth - index - 1) default).id }

/-- The lookup by the first characters comes upon no other vnode than the right one, and each vnode on the way has the
qid that the one below it has in the end. -/
def WalkFits (w : Drivers) (t : VnodeTree) (path : List Pstring) : Prop :=
  let T := trail (exactChild t) [] path
  let there := fun depth => (t.node (ancestor (T.getLastD []) depth)).qid
  trail (vnodeFindChild t) [] path = T ∧
    if T.length = path.length then
      ∃ mount index, lastMount t (([] :: T).take T.length) = some (mount, index) ∧
        Closes path.length index t.idCount there (w.reply t mount (t.request mount (path.drop index)))
    else
      ∃ mount index qs, lastMount t ([] :: T) = some (mount, index) ∧
        w.reply t mount (t.request mount (path.drop index)) = some (some qs) ∧
        Closes path.length index (t.idCount + 1) (madeQids there T.length path.length index t.idCount qs)
          (some (w.answer (t.node mount).mqId ((path.drop index).map Pstring.chars)
            ((t.node mount).qid.id.setWidth 32) (t.idCount + 1)))

theorem walkGives_finish {w : Drivers} {t t' : VnodeTree} {path : List Pstring} {s' : Walking} (d : Nat)
    (ends : ∀ fuel, vnodeScan w path (fuel + d) t = s'.finish w path t') :
    WalkGives w t path ↔ ∃ r : Scanned, s'.finish w path t' = some r ∧ r.Walked path := by
  constructor
  · rintro ⟨r, walked, k, always⟩
    exact ⟨r, (ends k).symm.trans (always (k + d) (Nat.le_add_right k d)), walked⟩
  · rintro ⟨r, is, walked⟩
    refine ⟨r, walked, d, fun fuel enough => ?_⟩
    obtain ⟨fuel, rfl⟩ := Nat.exists_eq_add_of_le' enough
    exact (ends fuel).trans is

theorem closes_congr {n index : Nat} {newFid : BitVec 32} {qids qids' : Nat → Qid} {reply : Option (Option (List Qid))}
    (same : ∀ j, j ≤ n → qids j = qids' j) : Closes n index newFid qids reply ↔ Closes n index newFid qids' reply := by
  have shifted (after after' : Nat → Qid) (afters : ∀ j, j ≤ n → after j = after' j) :
      Shifted n qids after ↔ Shifted n qids' after' :=
    forall₂_congr fun i small => by rw [same i small.le, afters (i + 1) small]
  have answers (answer : Option (List Qid)) (j : Nat) (small : j ≤ n) :
      answered qids index newFid answer j = answered qids' index newFid answer j := by
    cases answer with
    | none => exact same j small
    | some qs => simp only [answered, same j small]
  rw [Closes, Closes, same n (Nat.le_refl n), shifted _ _ same]
  simp only [shifted _ _ (answers _)]

theorem eldest_length (u : VnodeId) (m : Nat) : (eldest u m).length = u.length + m := by
  rw [eldest, List.length_append, List.length_replicate, Nat.add_comm]

theorem ancestor_eldest (u : VnodeId) {m k : Nat} (upper : m ≤ k) : ancestor (eldest u k) (u.length + m) = eldest u m := by
  have suffix : eldest u m <:+ eldest u k := by
    obtain ⟨d, rfl⟩ := Nat.exists_eq_add_of_le upper
    refine ⟨List.replicate d 0, ?_⟩
    rw [eldest, eldest, ← List.append_assoc, ← List.replicate_add, Nat.add_comm]
  rw [← eldest_length u m]
  exact ancestor_of_suffix suffix

/-- The walk after the driver has answered in full. -/
structure Completed (w : Drivers) (t : VnodeTree) (path : List Pstring) (s : Walking) (mount : VnodeId) (index : Nat)
    (qs : List Qid) (t' : VnodeTree) (s' : Walking) : Prop where
  ends : ∀ fuel, scanLoop w path (fuel + (path.length - s.i + 2)) t s = s'.finish w path t'
  arrived : Arrived t' path s' mount index
  noted : s'.Noted t'
  below : s.vnode <:+ s'.vnode
  reply : w.reply t' mount (t'.request mount (path.drop index)) =
    some (w.answer (t.node mount).mqId ((path.drop index).map Pstring.chars) ((t.node mount).qid.id.setWidth 32)
      (t.idCount + 1))
  idCount : t'.idCount = t.idCount + 1
  old : ∀ u : VnodeId, u.length ≤ s.i → (t'.node u).name = (t.node u).name ∧ (t'.node u).qid = (t.node u).qid
  made : ∀ m e q, path[s.i + m]? = some e → qs[s.i - index + m]? = some q →
    let child := ancestor s'.vnode (s.i + m + 1)
    (t'.node child).name.map Pstring.chars = some e.chars ∧
      (t'.node child).qid = { q with id := if s.i + m + 1 = path.length then t.idCount.setWidth 64 else q.id }

theorem Missing.completed {w : Drivers} (ample : w.Ample) (modest : w.Modest) {t : VnodeTree} {path : List Pstring}
    {s : Walking} {mount : VnodeId} {index : Nat} (missing : Missing t path s mount index) (noted : s.Noted t)
    {qs : List Qid} (reply : w.reply t mount (t.request mount (path.drop index)) = some (some qs))
    (whole : qs.length = path.length - index) : ∃ t' s', Completed w t path s mount index qs t' s' := by
  obtain ⟨direct, is⟩ := Drivers.reply_answers mount t _ missing.top reply
  obtain ⟨t', s', ahead, -, goes⟩ := missing.answered ample modest path mount index direct is
  have place := ahead.i
  have inside := missing.inside
  have after := missing.after
  have level := missing.level
  have more : s.i < index + qs.length := by omega
  obtain ⟨mid, grown, is', line⟩ := ahead.grown more
  have all : s'.i = path.length := by omega
  have far : s'.vnode.length = path.length := ahead.placed.level.trans all
  refine ⟨t', s', fun fuel => ?_, ⟨ahead.placed, all, ahead.under (by omega)⟩, ahead.noted more.le noted, ahead.below,
    ?_, ahead.idCount, fun u upper => ⟨ahead.names u (by rwa [level]), ?_⟩, fun m e q element qid => ?_⟩
  · rw [← Nat.add_assoc, show fuel + (path.length - s.i) + 2 = fuel + 1 + (s'.i - s.i) + 1 by omega, goes,
      Nat.add_sub_cancel]
    exact scanLoop_finish path all.ge fuel
  · have node := ahead.node
    rw [if_neg (by omega)] at node
    rw [w.reply_direct t' mount _ (by rw [node, direct]), VnodeTree.request, ahead.idCount, node]
  · have other : u ≠ s'.vnode := fun same => by
      rw [same] at upper
      omega
    rw [is', VnodeTree.setId_node, if_neg other]
    by_cases same : u = s.vnode
    · rw [same, grown.parent]
    · rw [grown.kept u same (not_suffix_of_length (by rwa [level]) _)]
  · have small := (List.getElem?_eq_some_iff.mp element).1
    have long : ((t.node s.vnode).childrenNo :: s.vnode).length + m = s.i + m + 1 := by
      rw [List.length_cons, level]
      omega
    have child : ancestor s'.vnode (s.i + m + 1) = eldest ((t.node s.vnode).childrenNo :: s.vnode) m := by
      rw [line, ← long]
      exact ancestor_eldest _ (by omega)
    have node := grown.made m e q (by rwa [List.getElem?_drop]) (by rwa [List.getElem?_drop])
    change mid.node (eldest ((t.node s.vnode).childrenNo :: s.vnode) m) = _ at node
    have last : eldest ((t.node s.vnode).childrenNo :: s.vnode) m = s'.vnode ↔ s.i + m + 1 = path.length := by
      rw [← child]
      constructor
      · intro same
        have lengths := congrArg List.length same
        rwa [ancestor_length (by omega), far] at lengths
      · intro end_
        rw [end_, ← far]
        exact ancestor_of_suffix List.suffix_rfl
    simp only [child, is', VnodeTree.setId_node, node, Option.map_some, Drivers.copy_chars, last, true_and]

section Walk

variable {w : Drivers} (ample : w.Ample) (modest : w.Modest) {t : VnodeTree} {path : List Pstring} {mount : VnodeId}
  {index : Nat} (exact_ : trail (exactChild t) [] path = trail (vnodeFindChild t) [] path)

include exact_ in
-- The names of the vnodes that are there.
theorem names_there (j : Nat) (e : Pstring) (small : j < (trail (vnodeFindChild t) [] path).length)
    (element : path[j]? = some e) :
    (t.node (ancestor ((trail (vnodeFindChild t) [] path).getLastD []) (j + 1))).name.map Pstring.chars =
      some e.chars := by
  have on := trail_ancestor (vnodeFindChild_descends t) [] path j small
  rw [List.length_nil, Nat.zero_add] at on
  exact exact_names t [] path j _ e (exact_ ▸ on) element

theorem start_noted (t : VnodeTree) (path : List Pstring) :
    (Walking.start.along t (trail (vnodeFindChild t) [] path)).Noted t :=
  Walking.Noted.along ⟨rfl, Nat.le_refl 0, fun j small => absurd small (Nat.not_lt_zero j)⟩ path

include ample modest exact_

theorem walkGives_cached (all : (trail (vnodeFindChild t) [] path).length = path.length)
    (last : lastMount t (([] :: trail (vnodeFindChild t) [] path).take (trail (vnodeFindChild t) [] path).length) =
      some (mount, index)) :
    WalkGives w t path ↔ Closes path.length index t.idCount
      (fun depth => (t.node (ancestor ((trail (vnodeFindChild t) [] path).getLastD []) depth)).qid)
      (w.reply t mount (t.request mount (path.drop index))) := by
  have arrived := start_arrived all last
  have lasts := Walking.along_vnode t Walking.start (trail (vnodeFindChild t) [] path)
  have depth := trail_last_length (vnodeFindChild_descends t) [] path
  rw [List.length_nil, Nat.zero_add, all] at depth
  have named : t.pathOf (Walking.start.along t (trail (vnodeFindChild t) [] path)).vnode =
      path.map (fun e => some e.chars) := by
    rw [lasts, t.pathOf_eq_iff]
    refine ⟨depth, fun j e element => names_there exact_ j e ?_ element⟩
    rw [all]
    exact (List.getElem?_eq_some_iff.mp element).1
  have ends (fuel : Nat) : vnodeScan w path (fuel + ((trail (vnodeFindChild t) [] path).length + 1)) t =
      (Walking.start.along t (trail (vnodeFindChild t) [] path)).finish w path t := by
    rw [vnodeScan_trail, ← Nat.add_assoc, Nat.add_right_comm, Nat.add_sub_cancel]
    exact scanLoop_finish path arrived.all.ge fuel
  rw [walkGives_finish _ ends, arrived.finish_iff ample modest (start_noted t path) named, lasts]
  rfl

theorem walkGives_made (fewer : (trail (vnodeFindChild t) [] path).length < path.length)
    (last : lastMount t ([] :: trail (vnodeFindChild t) [] path) = some (mount, index)) {qs : List Qid}
    (reply : w.reply t mount (t.request mount (path.drop index)) = some (some qs))
    (whole : qs.length = path.length - index) :
    WalkGives w t path ↔ Closes path.length index (t.idCount + 1)
      (madeQids (fun depth => (t.node (ancestor ((trail (vnodeFindChild t) [] path).getLastD []) depth)).qid)
        (trail (vnodeFindChild t) [] path).length path.length index t.idCount qs)
      (some (w.answer (t.node mount).mqId ((path.drop index).map Pstring.chars)
        ((t.node mount).qid.id.setWidth 32) (t.idCount + 1))) := by
  have missing := Walking.missing_start fewer last
  have lasts : (Walking.start.along t (trail (vnodeFindChild t) [] path)).vnode =
      (trail (vnodeFindChild t) [] path).getLastD [] :=
    Walking.along_vnode t Walking.start (trail (vnodeFindChild t) [] path)
  have place : (Walking.start.along t (trail (vnodeFindChild t) [] path)).i = (trail (vnodeFindChild t) [] path).length :=
    (Walking.along_i t Walking.start _).trans (Nat.zero_add _)
  obtain ⟨t', s', done⟩ := missing.completed ample modest (start_noted t path) reply whole
  have below := done.below
  have old := done.old
  have made := done.made
  have far := done.arrived.level.trans done.arrived.all
  have after := missing.after
  rw [lasts] at below
  rw [place] at old made after
  have depth := trail_last_length (vnodeFindChild_descends t) [] path
  rw [List.length_nil, Nat.zero_add] at depth
  have ends (fuel : Nat) : vnodeScan w path
      (fuel + (path.length - (trail (vnodeFindChild t) [] path).length + 2 + (trail (vnodeFindChild t) [] path).length)) t =
        s'.finish w path t' := by
    rw [vnodeScan_trail, ← Nat.add_assoc, Nat.add_sub_cancel]
    have ends := done.ends fuel
    rwa [place] at ends
  have named : t'.pathOf s'.vnode = path.map (fun e => some e.chars) := by
    refine (t'.pathOf_eq_iff _ path).mpr ⟨far, fun j e element => ?_⟩
    rcases Nat.lt_or_ge j (trail (vnodeFindChild t) [] path).length with there | new
    · rw [ancestor_trans below (by omega), (old _ (by rw [ancestor_length (by omega)]; omega)).1]
      exact names_there exact_ j e there element
    · obtain ⟨m, rfl⟩ := Nat.exists_eq_add_of_le new
      have small := (List.getElem?_eq_some_iff.mp element).1
      exact (made m e _ element (List.getElem?_eq_getElem (by omega))).1
  rw [walkGives_finish _ ends, done.arrived.finish_iff ample modest done.noted named, done.idCount, done.reply]
  refine closes_congr fun j small => ?_
  rw [madeQids]
  split
  · next there => rw [ancestor_trans below (by omega), (old _ (by rw [ancestor_length (by omega)]; omega)).2]
  · next new =>
    obtain ⟨m, rfl⟩ : ∃ m, j = (trail (vnodeFindChild t) [] path).length + m + 1 :=
      ⟨j - (trail (vnodeFindChild t) [] path).length - 1, by omega⟩
    have inside : (trail (vnodeFindChild t) [] path).length - index + m < qs.length := by omega
    have qid := (made m _ _ (List.getElem?_eq_getElem (by omega)) (List.getElem?_eq_getElem inside)).2
    rw [qid, show (trail (vnodeFindChild t) [] path).length + m + 1 - index - 1 =
      (trail (vnodeFindChild t) [] path).length - index + m by omega, List.getD_eq_getElem _ _ inside]

end Walk

theorem vnodeScan_walks_iff (w : Drivers) (ample : w.Ample) (modest : w.Modest) (t : VnodeTree)
    (rooted : (t.node []).mountNode = none) (distinct : t.Distinct) (path : List Pstring) (some_ : path ≠ [])
    (exist : AllExist w t path) : WalkGives w t path ↔ WalkFits w t path := by
  by_cases exact_ : trail (exactChild t) [] path = trail (vnodeFindChild t) [] path
  · rw [AllExist, exact_] at exist
    rw [WalkFits, exact_]
    simp only [true_and]
    have long := trail_length_le (vnodeFindChild t) [] path
    split
    · next all =>
      have more : trail (vnodeFindChild t) [] path ≠ [] := fun none_ => by
        rw [none_] at all
        exact some_ (List.length_eq_zero_iff.mp all.symm)
      obtain ⟨mount, index, last⟩ := lastMount_before rooted _ more
      rw [walkGives_cached ample modest exact_ all last]
      constructor
      · exact fun closes => ⟨mount, index, last, closes⟩
      · rintro ⟨mount', index', last', closes⟩
        obtain ⟨rfl, rfl⟩ := Prod.mk.inj (Option.some.inj (last.symm.trans last'))
        exact closes
    · next fewer =>
      obtain ⟨mount, index, qs, last, reply, whole⟩ := exist.resolve_left fewer
      rw [walkGives_made ample modest exact_ (Nat.lt_of_le_of_ne long fewer) last reply whole]
      constructor
      · exact fun closes => ⟨mount, index, qs, last, reply, closes⟩
      · rintro ⟨mount', index', qs', last', reply', closes⟩
        obtain ⟨rfl, rfl⟩ := Prod.mk.inj (Option.some.inj (last.symm.trans last'))
        obtain rfl : qs = qs' := Option.some.inj (Option.some.inj (reply.symm.trans reply'))
        exact closes
  · constructor
    · rintro ⟨r, walked, k, ends⟩
      exact absurd (walked_exact ample modest rooted distinct some_ (ends k (Nat.le_refl k)) walked) exact_
    · exact fun fits => absurd fits.1.symm exact_

theorem bootTree_distinct (id : BitVec 64) : (bootTree id).Distinct := by
  intro v _ i j chars first second _ _
  by_cases root : v = []
  · simp only [bootTree, if_pos root] at first second
    omega
  · simp only [bootTree, if_neg root] at first
    exact absurd first (Nat.not_lt_zero i)

-- Where the mount has the qid of the root, a walk to it gives the right one.
theorem bootTree_walks : WalkGives firstOnly (bootTree 0) [.of [98, 111, 111, 116]] := by
  refine (vnodeScan_walks_iff firstOnly firstOnly_ample firstOnly_modest (bootTree 0) rfl (bootTree_distinct 0) _
    (List.cons_ne_nil _ _) (.inl (by decide))).mpr ⟨by decide, ?_⟩
  rw [if_pos (by decide)]
  refine ⟨[], 0, by decide, ?_⟩
  rw [Closes, if_neg (by decide)]
  intro i small
  obtain rfl : i = 0 := by simpa using small
  decide

/-- The walk to /boot, for which the qid of the root is given. -/
theorem bootTree_misses : (bootTree 1).Distinct ∧ AllExist firstOnly (bootTree 1) [.of [98, 111, 111, 116]] ∧
    ¬ WalkGives firstOnly (bootTree 1) [.of [98, 111, 111, 116]] := by
  refine ⟨bootTree_distinct 1, .inl (by decide), fun gives => ?_⟩
  have last : lastMount (bootTree 1) (([] :: trail (vnodeFindChild (bootTree 1)) [] [.of [98, 111, 111, 116]]).take
      (trail (vnodeFindChild (bootTree 1)) [] [.of [98, 111, 111, 116]]).length) = some ([], 0) := by decide
  have closes := (walkGives_cached firstOnly_ample firstOnly_modest (by decide) (by decide) last).mp gives
  rw [Closes, if_neg (by decide)] at closes
  exact absurd (closes 0 (by decide)) (by decide)

end Anthill
