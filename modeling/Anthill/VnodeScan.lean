import Anthill.VnodeExpand

set_option autoImplicit false

namespace Anthill

def Walking.along (t : VnodeTree) (s : Walking) (vs : List VnodeId) : Walking := vs.foldl (fun s child => s.found t child) s

theorem Walking.along_vnode (t : VnodeTree) (s : Walking) (vs : List VnodeId) :
    (s.along t vs).vnode = vs.getLastD s.vnode := by
  induction vs generalizing s with
  | nil => rfl
  | cons v vs ih =>
    rw [List.getLastD_cons]
    exact ih (s.found t v)

theorem Walking.along_i (t : VnodeTree) (s : Walking) (vs : List VnodeId) : (s.along t vs).i = s.i + vs.length := by
  induction vs generalizing s with
  | nil => rfl
  | cons v vs ih =>
    refine (ih (s.found t v)).trans ?_
    rw [List.length_cons, Nat.add_comm vs.length, ← Nat.add_assoc]
    rfl

-- Vnodes that belong to a mount leave the mount as it is.
theorem Walking.along_mount (t : VnodeTree) (s : Walking) (vs : List VnodeId)
    (mounted : ∀ u, u ∈ vs → (t.node u).mountNode.isNone = false) :
    ((s.along t vs).visit t).mount = (s.visit t).mount ∧ (vs ≠ [] → (s.along t vs).mount = (s.visit t).mount) := by
  induction vs generalizing s with
  | nil => exact ⟨rfl, fun some => absurd rfl some⟩
  | cons v vs ih =>
    obtain ⟨visited, last⟩ := ih (s.found t v) fun u member => mounted u (List.mem_cons_of_mem v member)
    have first : ((s.found t v).visit t).mount = (s.visit t).mount := by
      rw [visit, found, mounted v List.mem_cons_self]
      rfl
    refine ⟨visited.trans first, fun _ => ?_⟩
    cases vs with
    | nil => rfl
    | cons u vs => exact (last (List.cons_ne_nil u vs)).trans first

-- The vnode that is above another at a depth.
def ancestor (v : VnodeId) (depth : Nat) : VnodeId := v.drop (v.length - depth)

theorem ancestor_of_suffix {u v : VnodeId} (suffix : u <:+ v) : ancestor v u.length = u :=
  (List.suffix_iff_eq_drop.mp suffix).symm

theorem ancestor_length {v : VnodeId} {depth : Nat} (upper : depth ≤ v.length) : (ancestor v depth).length = depth := by
  rw [ancestor, List.length_drop]
  omega

theorem ancestor_suffix (v : VnodeId) (depth : Nat) : ancestor v depth <:+ v := List.drop_suffix _ v

theorem ancestor_trans {u v : VnodeId} (suffix : u <:+ v) {depth : Nat} (upper : depth ≤ u.length) :
    ancestor v depth = ancestor u depth := by
  have above := ancestor_of_suffix ((ancestor_suffix u depth).trans suffix)
  rwa [ancestor_length upper] at above

/-- The qids noted are those of the vnodes above. -/
structure Walking.Noted (s : Walking) (t : VnodeTree) : Prop where
  depth : s.vnode.length = s.i
  room : s.i ≤ s.wqid.length
  qids : ∀ j, j < s.i → s.wqid[j]? = some (t.node (ancestor s.vnode j)).qid

theorem Walking.Noted.found {s : Walking} {t : VnodeTree} (noted : s.Noted t) (i : Nat) :
    (s.found t (i :: s.vnode)).Noted t := by
  have long : (s.wqid.take s.i).length = s.i := by
    rw [List.length_take]
    exact min_eq_left noted.room
  refine ⟨congrArg Nat.succ noted.depth, ?_, fun j small => ?_⟩
  · rw [Walking.found, visit, List.length_append, long]
    exact Nat.le_refl _
  · rw [Walking.found, visit]
    simp only
    rcases Nat.lt_succ_iff_lt_or_eq.mp small with earlier | rfl
    · rw [List.getElem?_append_left (by rwa [long]), List.getElem?_take_of_lt earlier, noted.qids j earlier,
        ancestor_trans (List.suffix_cons i s.vnode) (by rw [noted.depth]; exact earlier.le)]
    · rw [List.getElem?_append_right long.le, long, Nat.sub_self, List.getElem?_cons_zero, ← noted.depth,
        ancestor_of_suffix (List.suffix_cons i s.vnode)]

theorem Walking.Noted.along {s : Walking} {t : VnodeTree} (noted : s.Noted t) (es : List Pstring) :
    (s.along t (Anthill.trail (vnodeFindChild t) s.vnode es)).Noted t := by
  induction es generalizing s with
  | nil => exact noted
  | cons e es ih =>
    cases found : vnodeFindChild t s.vnode e with
    | none =>
      rw [trail_none found]
      exact noted
    | some child =>
      rw [trail_some found]
      obtain ⟨i, -, rfl, -⟩ := vnodeFindChild_child found
      exact ih (noted.found i)

theorem scanLoop_along (w : Drivers) (path : List Pstring) (t : VnodeTree) (s : Walking) (fuel : Nat) :
    let T := trail (vnodeFindChild t) s.vnode (path.drop s.i)
    scanLoop w path fuel t s = scanLoop w path (fuel - T.length) t (s.along t T) := by
  generalize is : path.drop s.i = es
  induction es generalizing s fuel with
  | nil => rfl
  | cons e es ih =>
    cases found : vnodeFindChild t s.vnode e with
    | none =>
      rw [trail_none found]
      rfl
    | some child =>
      have rest : path.drop (s.found t child).i = es := by
        have := congrArg (List.drop 1) is
        rwa [List.drop_drop, List.drop_succ_cons, List.drop_zero] at this
      rw [trail_some found]
      cases fuel with
      | zero =>
        intro T
        rw [Nat.zero_sub, scanLoop, scanLoop]
      | succ fuel =>
        rw [scanLoop, is]
        simp only [found, List.length_cons, Nat.add_sub_add_right]
        exact ih (s.found t child) fuel rest

-- The last of the vnodes that belongs to no mount, and its place.
def lastMount (t : VnodeTree) (vs : List VnodeId) : Option (VnodeId × Nat) :=
  (vs.zipIdx.filter fun v => (t.node v.1).mountNode.isNone).getLast?

theorem lastMount_concat (t : VnodeTree) (vs : List VnodeId) (v : VnodeId) :
    lastMount t (vs ++ [v]) = if (t.node v).mountNode.isNone then some (v, vs.length) else lastMount t vs := by
  rw [lastMount, List.zipIdx_append, List.filter_append]
  split
  · next top => simp [top]
  · next mounted => simp [mounted, lastMount]

theorem lastMount_some {t : VnodeTree} {vs : List VnodeId} {mount : VnodeId} {index : Nat}
    (last : lastMount t vs = some (mount, index)) : vs[index]? = some mount ∧ (t.node mount).mountNode = none := by
  have member := List.mem_filter.mp (List.mem_of_getLast? last)
  exact ⟨List.mem_zipIdx_iff_getElem?.mp member.1, Option.isNone_iff_eq_none.mp member.2⟩

def Walking.start : Walking := ⟨[], none, 0, []⟩

theorem Walking.start_mount (t : VnodeTree) (vs : List VnodeId) :
    ((start.along t vs).visit t).mount = lastMount t ([] :: vs) ∧
    (start.along t vs).mount = lastMount t (([] :: vs).take vs.length) := by
  induction vs using List.reverseRecOn with
  | nil =>
    refine ⟨?_, rfl⟩
    exact (lastMount_concat t [] []).symm
  | append_singleton vs v ih =>
    have along : start.along t (vs ++ [v]) = (start.along t vs).found t v := List.foldl_concat ..
    rw [along, List.length_append, List.length_singleton, ← List.cons_append, List.take_left' (List.length_cons),
      lastMount_concat, ← ih.1]
    refine ⟨?_, rfl⟩
    have place : (start.along t vs).i = vs.length := by rw [along_i]; exact Nat.zero_add _
    rw [List.length_cons, ← place]
    rfl

theorem lastMount_root (t : VnodeTree) (rooted : (t.node []).mountNode = none) (vs : List VnodeId) :
    ∃ mount index, lastMount t ([] :: vs) = some (mount, index) := by
  induction vs using List.reverseRecOn with
  | nil => exact ⟨[], 0, by rw [← List.nil_append [[]], lastMount_concat, rooted]; rfl⟩
  | append_singleton vs v ih =>
    rw [← List.cons_append, lastMount_concat]
    split
    · exact ⟨v, _, rfl⟩
    · exact ih

theorem trail_from (find : VnodeId → Pstring → Option VnodeId) (v u : VnodeId) (es : List Pstring) (i : Nat)
    (on : (v :: trail find v es)[i]? = some u) : trail find u (es.drop i) = (trail find v es).drop i ∧
      ((trail find v es).drop i).getLastD u = (trail find v es).getLastD v := by
  induction es generalizing v i with
  | nil =>
    cases i with
    | zero =>
      obtain rfl := Option.some.inj on
      exact ⟨rfl, rfl⟩
    | succ i => cases on
  | cons e es ih =>
    cases i with
    | zero =>
      obtain rfl := Option.some.inj on
      exact ⟨rfl, rfl⟩
    | succ i =>
      cases found : find v e with
      | none =>
        rw [trail_none found] at on
        cases on
      | some child =>
        rw [trail_some found] at on ⊢
        rw [List.drop_succ_cons, List.drop_succ_cons, List.getLastD_cons]
        exact ih child i on

theorem trail_depth {find : VnodeId → Pstring → Option VnodeId} (descends : Descends find) (v u : VnodeId)
    (es : List Pstring) (i : Nat) (on : (v :: trail find v es)[i]? = some u) : u.length = v.length + i := by
  induction es generalizing v i with
  | nil =>
    cases i with
    | zero =>
      obtain rfl := Option.some.inj on
      rfl
    | succ i => cases on
  | cons e es ih =>
    cases i with
    | zero =>
      obtain rfl := Option.some.inj on
      rfl
    | succ i =>
      cases found : find v e with
      | none =>
        rw [trail_none found] at on
        cases on
      | some child =>
        rw [trail_some found] at on
        obtain ⟨j, rfl⟩ := descends v e child found
        rw [ih (j :: v) i on, List.length_cons, Nat.add_right_comm, Nat.add_assoc]

/-- The walk stands at a vnode below the mount, whose next element is at `index`. -/
structure AtVnode (t : VnodeTree) (path : List Pstring) (s : Walking) (mount : VnodeId) (index : Nat) : Prop where
  top : (t.node mount).mountNode = none
  depth : mount.length = index
  after : index + (trail (vnodeFindChild t) mount (path.drop index)).length = s.i
  last : (trail (vnodeFindChild t) mount (path.drop index)).getLastD mount = s.vnode

/-- The walk has come to an element that is not there. -/
structure Missing (t : VnodeTree) (path : List Pstring) (s : Walking) (mount : VnodeId) (index : Nat) : Prop
    extends AtVnode t path s mount index where
  under : (s.visit t).mount = some (mount, index)
  inside : s.i < path.length

theorem AtVnode.level {t : VnodeTree} {path : List Pstring} {s : Walking} {mount : VnodeId} {index : Nat}
    (at_ : AtVnode t path s mount index) : s.vnode.length = s.i := by
  rw [← at_.last, trail_last_length (vnodeFindChild_descends t), at_.depth, at_.after]

theorem Missing.asks {t : VnodeTree} {path : List Pstring} {s : Walking} {mount : VnodeId} {index : Nat}
    (missing : Missing t path s mount index) (w : Drivers) (fuel : Nat) :
    scanLoop w path (fuel + 1) t s = (expand w t mount (path.drop index)).bind fun (err, next) =>
      if err = .ok then scanLoop w path fuel next (s.visit t) else some ⟨next, s.i, (s.visit t).wqid, none⟩ := by
  have inside := missing.inside
  have element : (path.drop index)[(trail (vnodeFindChild t) mount (path.drop index)).length]? = some path[s.i] := by
    rw [List.getElem?_drop, missing.after, List.getElem?_eq_getElem missing.inside]
  have absent := trail_missing _ mount (path.drop index) _ element
  rw [missing.last] at absent
  rw [Anthill.scanLoop, List.drop_eq_getElem_cons missing.inside]
  simp only [absent, missing.under, Option.bind_some]

theorem Walking.visit_visit {t t' : VnodeTree} {s : Walking}
    (same : (t'.node s.vnode).mountNode = (t.node s.vnode).mountNode) : ((s.visit t).visit t').mount = (s.visit t).mount := by
  simp only [visit, same]
  split <;> rfl

theorem getLastD_append {α : Type} (xs ys : List α) (a : α) : (xs ++ ys).getLastD a = ys.getLastD (xs.getLastD a) := by
  induction xs generalizing a with
  | nil => rfl
  | cons x xs ih => rw [List.cons_append, List.getLastD_cons, List.getLastD_cons, ih]

/-- The walk after the driver has answered with `qs`. -/
structure Ahead (w : Drivers) (path : List Pstring) (mount : VnodeId) (index : Nat) (t : VnodeTree) (s : Walking)
    (t' : VnodeTree) (s' : Walking) (qs : List Qid) : Prop where
  scan : ∀ fuel, scanLoop w path fuel t' (s.visit t) = scanLoop w path (fuel - (s'.i - s.i)) t' s'
  i : s'.i = max s.i (index + qs.length)
  placed : AtVnode t' path s' mount index
  missing : s'.i < path.length → Missing t' path s' mount index
  under : s.i < s'.i → s'.mount = some (mount, index)
  idCount : t'.idCount = t.idCount + 1
  node : t'.node mount = { t.node mount with
    childrenNo := (t'.node mount).childrenNo
    qid.id := if qs.length = 0 then t.idCount.setWidth 64 else (t.node mount).qid.id }
  below : s.vnode <:+ s'.vnode
  names : ∀ u : VnodeId, u.length ≤ s.vnode.length → (t'.node u).name = (t.node u).name
  noted : s.i ≤ index + qs.length → s.Noted t → s'.Noted t'
  grown : s.i < index + qs.length → ∃ mid,
    Grown w mount s.vnode { t with idCount := t.idCount + 1 } mid (path.drop s.i) (qs.drop (s.i - index)) ∧
    t' = mid.setId s'.vnode t.idCount ∧
    s'.vnode = eldest ((t.node s.vnode).childrenNo :: s.vnode) (index + qs.length - s.i - 1)

section Answered

variable {w : Drivers} {t mid t' : VnodeTree} {path : List Pstring} {s : Walking} {mount : VnodeId} {index : Nat}
  {qs : List Qid} (missing : Missing t path s mount index)
  (extended : Extended w mount { t with idCount := t.idCount + 1 } mid (path.drop index) qs)
  (short : qs.length ≤ (path.drop index).length)
  (is : t' = mid.setId (t.reached mount (path.drop index) qs.length) t.idCount)

include missing in
theorem Missing.depth_trail : mount.length + (trail (vnodeFindChild t) mount (path.drop index)).length = s.vnode.length := by
  rw [missing.depth, missing.after, missing.level]

include missing extended

theorem Missing.old (u : VnodeId) (upper : u.length ≤ s.vnode.length) :
    mid.node u = { t.node u with childrenNo := (mid.node u).childrenNo } := by
  rw [← missing.depth_trail] at upper
  exact extended.old u upper

theorem Missing.old_mount : mid.node mount = { t.node mount with childrenNo := (mid.node mount).childrenNo } :=
  missing.old extended mount (missing.depth_trail ▸ Nat.le_add_right _ _)

include short is

/-- The elements lead on from where the walk is, by a vnode for each further qid. -/
theorem Missing.leads : ∃ new, trail (vnodeFindChild t') s.vnode (path.drop s.i) = new ∧
    trail (vnodeFindChild t') mount (path.drop index) = trail (vnodeFindChild t) mount (path.drop index) ++ new ∧
    index + qs.length - s.i = new.length ∧ ∀ u, u ∈ new → (t'.node u).mountNode = some mount := by
  obtain ⟨new, ahead, whole, long, mounted⟩ := extended.trail short
  change trail (vnodeFindChild mid) ((trail (vnodeFindChild t) mount (path.drop index)).getLastD mount)
    ((path.drop index).drop (trail (vnodeFindChild t) mount (path.drop index)).length) = new at ahead
  change trail (vnodeFindChild mid) mount (path.drop index) = trail (vnodeFindChild t) mount (path.drop index) ++ new at whole
  change new.length = qs.length - (trail (vnodeFindChild t) mount (path.drop index)).length at long
  have after := missing.after
  rw [missing.last, List.drop_drop, after] at ahead
  have lookup : vnodeFindChild t' = vnodeFindChild mid := by rw [is, VnodeTree.setId_find]
  rw [← lookup] at ahead whole
  refine ⟨new, ahead, whole, by omega, fun u member => ?_⟩
  rw [is, VnodeTree.setId_node, mounted u member]

theorem Missing.placed {s' : Walking} (walked : s' = (s.visit t).along t' (trail (vnodeFindChild t') s.vnode (path.drop s.i))) :
    s'.i = max s.i (index + qs.length) ∧ AtVnode t' path s' mount index ∧ (s'.visit t').mount = some (mount, index) ∧
      (s.i < s'.i → s'.mount = some (mount, index)) := by
  obtain ⟨new, ahead, whole, long, mounted⟩ := missing.leads extended short is
  rw [ahead] at walked
  have after := missing.after
  have mounts (u : VnodeId) : (t'.node u).mountNode = (mid.node u).mountNode := by rw [is, VnodeTree.setId_node]
  have kept : (t'.node s.vnode).mountNode = (t.node s.vnode).mountNode := by
    rw [mounts, missing.old extended s.vnode (Nat.le_refl _)]
  have place : s'.i = s.i + new.length := walked ▸ Walking.along_i t' (s.visit t) new
  have along := Walking.along_mount t' (s.visit t) new fun u member => by
    rw [mounted u member]
    rfl
  rw [Walking.visit_visit kept, missing.under, ← walked] at along
  refine ⟨by omega, ⟨?_, missing.depth, ?_, ?_⟩, along.1, fun more => along.2 fun none_ => ?_⟩
  · rw [mounts, missing.old_mount extended, missing.top]
  · rw [whole, List.length_append, place]
    omega
  · rw [whole, getLastD_append, missing.last, walked, Walking.along_vnode]
    rfl
  · have empty := congrArg List.length none_
    rw [List.length_nil] at empty
    omega

omit short in
-- An answer that comes as far as the walk sets no fid above it.
theorem Missing.visited (reaches : s.i ≤ index + qs.length) (noted : s.Noted t) : (s.visit t).Noted t' := by
  have room := noted.room
  refine ⟨noted.depth, ?_, fun j small => ?_⟩
  · rw [Walking.visit, List.length_append, List.length_take, min_eq_left room]
    exact Nat.le_succ _
  · change j < s.i at small
    have above : (ancestor s.vnode j).length = j := ancestor_length (by rw [noted.depth]; exact small.le)
    have other : ancestor s.vnode j ≠ t.reached mount (path.drop index) qs.length := fun same => by
      have reached := t.reached_length mount (path.drop index) qs.length
      rw [← same, above, missing.depth] at reached
      omega
    have listed : j < (s.wqid.take s.i).length := by
      rw [List.length_take, min_eq_left room]
      exact small
    have qid := noted.qids j small
    rw [Walking.visit, List.getElem?_append_left listed, List.getElem?_take_of_lt small, qid, is,
      VnodeTree.setId_node, if_neg other, missing.old extended _ (by rw [above, noted.depth]; exact small.le)]

-- An answer that comes further than the walk makes the vnodes from there on.
theorem Missing.grown (further : s.i < index + qs.length) :
    Grown w mount s.vnode { t with idCount := t.idCount + 1 } mid (path.drop s.i) (qs.drop (s.i - index)) ∧
    t.reached mount (path.drop index) qs.length =
      eldest ((t.node s.vnode).childrenNo :: s.vnode) (index + qs.length - s.i - 1) ∧
    (trail (vnodeFindChild t') s.vnode (path.drop s.i)).getLastD s.vnode =
      eldest ((t.node s.vnode).childrenNo :: s.vnode) (index + qs.length - s.i - 1) := by
  have after := missing.after
  have longer : ¬ qs.length ≤ (trail (vnodeFindChild t) mount (path.drop index)).length := by omega
  rw [List.length_drop] at short
  have grown := extended
  rw [Extended] at grown
  change if qs.length ≤ (trail (vnodeFindChild t) mount (path.drop index)).length then _ else
    Grown w mount ((trail (vnodeFindChild t) mount (path.drop index)).getLastD mount) _ mid
      ((path.drop index).drop (trail (vnodeFindChild t) mount (path.drop index)).length)
      (qs.drop (trail (vnodeFindChild t) mount (path.drop index)).length) at grown
  rw [if_neg longer, missing.last, List.drop_drop, after,
    show (trail (vnodeFindChild t) mount (path.drop index)).length = s.i - index by omega] at grown
  have long : (qs.drop (s.i - index)).length = index + qs.length - s.i - 1 + 1 := by
    rw [List.length_drop]
    omega
  refine ⟨grown, ?_, ?_⟩
  · rw [VnodeTree.reached, if_neg longer, missing.last]
    congr 1
    omega
  · have line := grown.trail (by rw [long, List.length_drop]; omega) (by rw [long]; exact Nat.succ_pos _) fun e element => by
      have absent := trail_missing (vnodeFindChild t) mount (path.drop index) e
        (by rw [List.getElem?_drop, after]; rwa [List.getElem?_drop] at element)
      rwa [missing.last] at absent
    rw [is, VnodeTree.setId_find, line, long, List.range_succ, List.map_append, List.map_singleton, List.getLastD_concat]

end Answered

theorem Missing.ahead {w : Drivers} {t t' : VnodeTree} {path : List Pstring} {s : Walking} {mount : VnodeId} {index : Nat}
    (missing : Missing t path s mount index) (ok : expand w t mount (path.drop index) = some (.ok, t')) : ∃ qs s',
      w.reply t mount (t.request mount (path.drop index)) = some (some qs) ∧ qs.length ≤ path.length - index ∧
      Ahead w path mount index t s t' s' qs := by
  obtain ⟨qs, mid, reply, short, extended, is⟩ := expand_ok ok
  let s' := (s.visit t).along t' (trail (vnodeFindChild t') s.vnode (path.drop s.i))
  have vnode : s'.vnode = (trail (vnodeFindChild t') s.vnode (path.drop s.i)).getLastD s.vnode := Walking.along_vnode _ _ _
  obtain ⟨place, placed, under, last⟩ := missing.placed extended short is (rfl : s' = _)
  refine ⟨qs, s', reply, List.length_drop ▸ short, ⟨fun fuel => ?_, place, placed, fun inside => ⟨placed, under, inside⟩, last,
    ?_, ?_, ?_, fun u upper => ?_, fun reaches noted => ?_, fun further => ?_⟩⟩
  · have walk := scanLoop_along w path t' (s.visit t) fuel
    have far : s'.i = s.i + (trail (vnodeFindChild t') s.vnode (path.drop s.i)).length := Walking.along_i ..
    rw [far, Nat.add_sub_cancel_left]
    exact walk
  · rw [is, VnodeTree.setId_idCount, extended.idCount]
  · rw [is, VnodeTree.setId_node, missing.old_mount extended]
    simp only [VnodeTree.reached_eq_mount, eq_comm (a := mount)]
  · rw [vnode]
    exact trail_suffix (vnodeFindChild_descends t') s.vnode (path.drop s.i)
  · rw [is, VnodeTree.setId_node, missing.old extended u upper]
  · exact (missing.visited extended is reaches noted).along (path.drop s.i)
  · obtain ⟨grown, reached, end_⟩ := missing.grown extended short is further
    exact ⟨mid, grown, by rw [vnode, end_, ← reached, is], vnode.trans end_⟩

-- The answer of the driver behind a mount that has no channel.
def Drivers.answer (w : Drivers) (mq : Int) (names : List (List Byte)) (fid newFid : BitVec 32) : Option (List Qid) :=
  if twalkSize ⟨fid, newFid, names⟩ ≤ vfsMaxMsgLen - mqIdSize then w.walk mq ⟨fid, newFid, names⟩ else none

/-- Answers come to an end for a request that is repeated under new fids until nothing is missing: `known` elements are
there, and so many are when it ends. A driver that answers with no element has the mount change its own fid. -/
inductive Settles (answer : BitVec 32 → BitVec 32 → Option Nat) (all : Nat) : BitVec 32 → BitVec 32 → Nat → Nat → Prop
  | refused {fid newFid : BitVec 32} {known : Nat} (refuses : answer fid newFid = none) :
    Settles answer all fid newFid known known
  | full {fid newFid : BitVec 32} {known : Nat} (complete : answer fid newFid = some all) :
    Settles answer all fid newFid known all
  | part {fid newFid : BitVec 32} {known count k : Nat} (partial_ : answer fid newFid = some k) (fewer : k < all)
    (later : Settles answer all (if k = 0 then newFid else fid) (newFid + 1) (max known k) count) :
    Settles answer all fid newFid known count

-- A driver that answers to every request, and never in full, is asked for ever.
theorem not_settles {answer : BitVec 32 → BitVec 32 → Option Nat} {all : Nat}
    (fewer : ∀ fid newFid, ∃ k, answer fid newFid = some k ∧ k < all) {fid newFid : BitVec 32} {known count : Nat} :
    ¬ Settles answer all fid newFid known count := by
  intro settles
  induction settles with
  | @refused fid newFid _ refuses =>
    obtain ⟨k, is, -⟩ := fewer fid newFid
    cases refuses.symm.trans is
  | @full fid newFid _ complete =>
    obtain ⟨k, is, less⟩ := fewer fid newFid
    exact absurd (Option.some.inj (complete.symm.trans is)) less.ne'
  | part _ _ _ ih => exact ih

-- A driver walks no more elements than it is asked to.
def Drivers.Modest (w : Drivers) : Prop := ∀ q r qs, w.walk q r = some qs → qs.length ≤ r.wname.length

theorem Drivers.reply_direct (w : Drivers) (t : VnodeTree) (mount : VnodeId) (r : Twalk)
    (direct : (t.node mount).channelNode = none) :
    w.reply t mount r = some (w.answer (t.node mount).mqId r.wname r.fid r.newfid) := by
  rw [reply, direct]
  rfl

theorem Drivers.Modest.answer {w : Drivers} (modest : w.Modest) {mq : Int} {names : List (List Byte)}
    {fid newFid : BitVec 32} {qs : List Qid} (is : w.answer mq names fid newFid = some qs) : qs.length ≤ names.length := by
  rw [Drivers.answer] at is
  split at is
  · exact modest _ _ _ is
  · cases is

section Rounds

variable {w : Drivers} (ample : w.Ample) (modest : w.Modest) (path : List Pstring) (mount : VnodeId) (index : Nat)

include ample modest

-- A driver that answers lets _expand return.
theorem expand_direct (t : VnodeTree) (es : List Pstring) (direct : (t.node mount).channelNode = none) :
    ∃ err t', expand w t mount es = some (err, t') ∧
      (err = .ok ↔ (w.answer (t.node mount).mqId (es.map Pstring.chars) ((t.node mount).qid.id.setWidth 32)
        t.idCount).isSome) := by
  have reply := w.reply_direct t mount (t.request mount es) direct
  cases is : w.answer (t.node mount).mqId (es.map Pstring.chars) ((t.node mount).qid.id.setWidth 32) t.idCount with
  | none =>
    have none_ : w.reply t mount (t.request mount es) = some none := reply.trans (congrArg some is)
    refine ⟨.mqerr, { t with idCount := t.idCount + 1 }, ?_, by simp⟩
    rw [expand, none_]
    rfl
  | some qs =>
    have short := modest.answer is
    rw [List.length_map] at short
    obtain ⟨t', ok⟩ := expand_ample ample t mount es qs (reply.trans (congrArg some is)) short
    exact ⟨.ok, t', ok, by simp⟩

omit ample modest in
theorem Missing.refused {t : VnodeTree} {s : Walking} (missing : Missing t path s mount index)
    (refuses : w.reply t mount (t.request mount (path.drop index)) = some none) (fuel : Nat) :
    ∃ r, scanLoop w path (fuel + 1) t s = some r ∧ r.count = s.i := by
  rw [missing.asks, expand, refuses]
  exact ⟨_, rfl, rfl⟩

theorem Missing.answered {t : VnodeTree} {s : Walking} (missing : Missing t path s mount index) {qs : List Qid}
    (direct : (t.node mount).channelNode = none)
    (is : w.answer (t.node mount).mqId ((path.drop index).map Pstring.chars) ((t.node mount).qid.id.setWidth 32)
      t.idCount = some qs) :
    ∃ t' s', Ahead w path mount index t s t' s' qs ∧ qs.length ≤ path.length - index ∧
      ∀ fuel, scanLoop w path (fuel + 1) t s = scanLoop w path (fuel - (s'.i - s.i)) t' s' := by
  have short := modest.answer is
  rw [List.length_map] at short
  have reply := (w.reply_direct t mount (t.request mount (path.drop index)) direct).trans (congrArg some is)
  obtain ⟨t', ok⟩ := expand_ample ample t mount (path.drop index) qs reply short
  obtain ⟨qs', s', reply', short', ahead⟩ := missing.ahead ok
  obtain rfl : qs = qs' := Option.some.inj (Option.some.inj (reply.symm.trans reply'))
  refine ⟨t', s', ahead, short', fun fuel => ?_⟩
  rw [missing.asks, ok, Option.bind_some]
  exact ahead.scan fuel

omit ample modest in
theorem Walking.finish_count {t : VnodeTree} {s : Walking} {r : Scanned} (ends : s.finish w path t = some r) :
    r.count = path.length := by
  rw [finish] at ends
  split at ends
  · obtain ⟨place, -, made⟩ := Option.bind_eq_some_iff.mp ends
    obtain ⟨result, -, rfl⟩ := Option.map_eq_some_iff.mp made
    rfl
  · obtain rfl := Option.some.inj ends
    rfl

omit ample modest in
theorem scanLoop_finish {t : VnodeTree} {s : Walking} (all : path.length ≤ s.i) (fuel : Nat) :
    scanLoop w path (fuel + 1) t s = s.finish w path t := by
  rw [scanLoop, List.drop_eq_nil_of_le all]

omit ample modest in
theorem Drivers.reply_channel (t : VnodeTree) (r : Twalk) (top : (t.node mount).mountNode = none)
    (channel : (t.node mount).channelNode ≠ none) : w.reply t mount r = none ∨ w.reply t mount r = some none := by
  obtain ⟨node, is⟩ := Option.ne_none_iff_exists'.mp channel
  simp only [reply, is, top, Option.map_none]
  split
  · exact .inl rfl
  · exact .inr rfl

omit ample modest in
-- Only a mount without a channel has an answer with qids, which is the driver's.
theorem Drivers.reply_answers (t : VnodeTree) (es : List Pstring) (top : (t.node mount).mountNode = none) {qs : List Qid}
    (reply : w.reply t mount (t.request mount es) = some (some qs)) : (t.node mount).channelNode = none ∧
      w.answer (t.node mount).mqId (es.map Pstring.chars) ((t.node mount).qid.id.setWidth 32) t.idCount = some qs := by
  have direct : (t.node mount).channelNode = none := by
    by_contra channel
    rcases Drivers.reply_channel mount t (t.request mount es) top channel with is | is
    · cases is.symm.trans reply
    · cases is.symm.trans reply
  exact ⟨direct, Option.some.inj ((w.reply_direct t mount _ direct).symm.trans reply)⟩

theorem expand_returns_iff (t : VnodeTree) (es : List Pstring) (top : (t.node mount).mountNode = none) :
    (∃ result, expand w t mount es = some result) ↔ w.reply t mount (t.request mount es) ≠ none := by
  by_cases direct : (t.node mount).channelNode = none
  · obtain ⟨err, t', made, -⟩ := expand_direct ample modest mount t es direct
    rw [made, w.reply_direct t mount _ direct]
    exact ⟨fun _ => Option.some_ne_none _, fun _ => ⟨_, rfl⟩⟩
  · rw [expand]
    rcases Drivers.reply_channel mount t (t.request mount es) top direct with fault | refused
    · rw [fault]
      refine ⟨?_, fun some => absurd rfl some⟩
      rintro ⟨result, made⟩
      cases made
    · rw [refused]
      exact ⟨fun _ => Option.some_ne_none _, fun _ => ⟨_, rfl⟩⟩

theorem Walking.finish_direct {t : VnodeTree} {s : Walking} (under : s.mount = some (mount, index))
    (direct : (t.node mount).channelNode = none) :
    ∃ r, s.finish w path t = some r := by
  rw [finish]
  split
  · obtain ⟨err, t', made, -⟩ := expand_direct ample modest mount t (path.drop index) direct
    simp only [under, Option.bind_some, made, Option.map_some]
    exact ⟨_, rfl⟩
  · exact ⟨_, rfl⟩

theorem settles_of_scanLoop (mq : Int) (fuel : Nat) (t : VnodeTree) (s : Walking)
    (missing : Missing t path s mount index) (direct : (t.node mount).channelNode = none)
    (queue : (t.node mount).mqId = mq) (r : Scanned) (ends : scanLoop w path fuel t s = some r) :
    ∃ count, Settles (fun fid newFid => (w.answer mq ((path.drop index).map Pstring.chars) fid newFid).map List.length)
      (path.length - index) ((t.node mount).qid.id.setWidth 32) t.idCount (s.i - index) count ∧ r.count = index + count := by
  have inside := missing.inside
  have after := missing.after
  induction fuel using Nat.strong_induction_on generalizing t s with
  | _ fuel ih =>
    cases fuel with
    | zero => cases ends
    | succ fuel =>
      cases is : w.answer (t.node mount).mqId ((path.drop index).map Pstring.chars)
          ((t.node mount).qid.id.setWidth 32) t.idCount with
      | none =>
        have refuses := (w.reply_direct t mount (t.request mount (path.drop index)) direct).trans (congrArg some is)
        obtain ⟨r', ends', count⟩ := missing.refused path mount index refuses fuel
        obtain rfl : r' = r := Option.some.inj (ends'.symm.trans ends)
        rw [queue] at is
        exact ⟨s.i - index, .refused (congrArg _ is), by omega⟩
      | some qs =>
        obtain ⟨t', s', ahead, short, goes⟩ := missing.answered ample modest path mount index direct is
        have place := ahead.i
        rw [goes] at ends
        rw [queue] at is
        rcases Nat.lt_or_ge s'.i path.length with further | all
        · have node := ahead.node
          obtain ⟨count, settles, is_⟩ := ih (fuel - (s'.i - s.i)) (by omega) t' s' (ahead.missing further)
            (by rw [node, direct]) (by rw [node, queue]) ends further (ahead.missing further).after
          refine ⟨count, .part (k := qs.length) (congrArg _ is) (by omega) ?_, is_⟩
          rw [node, ahead.idCount, show s'.i - index = max (s.i - index) qs.length by omega] at settles
          simp only at settles
          split at settles
          · next none_ =>
            rw [if_pos none_]
            simpa using settles
          · next some_ =>
            rwa [if_neg some_]
        · cases rest : fuel - (s'.i - s.i) with
          | zero =>
            rw [rest] at ends
            cases ends
          | succ fuel =>
            rw [rest, scanLoop_finish path all] at ends
            have count := Walking.finish_count path ends
            exact ⟨path.length - index, .full (by rw [is, Option.map_some]; congr 1; omega), by omega⟩

theorem scanLoop_of_settles (mq : Int) {fid newFid : BitVec 32} {known count : Nat}
    (settles : Settles (fun fid newFid => (w.answer mq ((path.drop index).map Pstring.chars) fid newFid).map List.length)
      (path.length - index) fid newFid known count) (t : VnodeTree) (s : Walking)
    (missing : Missing t path s mount index) (direct : (t.node mount).channelNode = none)
    (queue : (t.node mount).mqId = mq) (fids : (t.node mount).qid.id.setWidth 32 = fid) (next : t.idCount = newFid)
    (there : s.i - index = known) :
    ∃ k, ∀ fuel, k ≤ fuel → ∃ r, scanLoop w path fuel t s = some r ∧ r.count = index + count := by
  have inside := missing.inside
  have after := missing.after
  induction settles generalizing t s with
  | refused refuses =>
    subst queue fids next
    have none_ := Option.map_eq_none_iff.mp refuses
    have refuses := (w.reply_direct t mount (t.request mount (path.drop index)) direct).trans (congrArg some none_)
    refine ⟨1, fun fuel enough => ?_⟩
    obtain ⟨fuel, rfl⟩ := Nat.exists_eq_add_of_le' enough
    obtain ⟨r, ends, count⟩ := missing.refused path mount index refuses fuel
    exact ⟨r, ends, by omega⟩
  | full complete =>
    subst queue fids next
    obtain ⟨qs, is, long⟩ := Option.map_eq_some_iff.mp complete
    obtain ⟨t', s', ahead, -, goes⟩ := missing.answered ample modest path mount index direct is
    have place := ahead.i
    obtain ⟨r, ends⟩ := Walking.finish_direct ample modest path mount index (ahead.under (by omega))
      (t := t') (by rw [ahead.node, direct])
    refine ⟨s'.i - s.i + 2, fun fuel enough => ⟨r, ?_, ?_⟩⟩
    · obtain ⟨fuel, rfl⟩ := Nat.exists_eq_add_of_le' enough
      rw [← Nat.add_assoc fuel, goes, show fuel + (s'.i - s.i) + 1 - (s'.i - s.i) = fuel + 1 by omega,
        scanLoop_finish path (by omega), ends]
    · rw [Walking.finish_count path ends]
      omega
  | part partial_ fewer later ih =>
    subst queue fids next there
    obtain ⟨qs, is, rfl⟩ := Option.map_eq_some_iff.mp partial_
    obtain ⟨t', s', ahead, -, goes⟩ := missing.answered ample modest path mount index direct is
    have place := ahead.i
    have further : s'.i < path.length := by omega
    have fids : (t'.node mount).qid.id.setWidth 32 =
        if qs.length = 0 then t.idCount else (t.node mount).qid.id.setWidth 32 := by
      rw [ahead.node]
      split <;> simp
    obtain ⟨k, ends⟩ := ih t' s' (ahead.missing further) (by rw [ahead.node, direct]) (by rw [ahead.node]) fids
      ahead.idCount (by omega) further (ahead.missing further).after
    refine ⟨k + (s'.i - s.i) + 1, fun fuel enough => ?_⟩
    obtain ⟨fuel, rfl⟩ := Nat.exists_eq_add_of_le' enough
    obtain ⟨r, ends, count⟩ := ends (fuel + k) (Nat.le_add_left k fuel)
    refine ⟨r, ?_, count⟩
    rw [← Nat.add_assoc fuel, goes, ← Nat.add_assoc fuel, Nat.add_sub_cancel, ends]

theorem scanLoop_finish_iff (t : VnodeTree) (s : Walking) (all : s.i = path.length) (count : Nat)
    (top : ∀ mount index, s.mount = some (mount, index) → (t.node mount).mountNode = none) :
    (∃ k, ∀ fuel, k ≤ fuel → ∃ r, scanLoop w path fuel t s = some r ∧ r.count = count) ↔
      count = path.length ∧ ((t.node s.vnode).qid.id = nofid.setWidth 64 →
        ∃ mount index, s.mount = some (mount, index) ∧
          w.reply t mount (t.request mount (path.drop index)) ≠ none) := by
  have once : (∃ k, ∀ fuel, k ≤ fuel → ∃ r, scanLoop w path fuel t s = some r ∧ r.count = count) ↔
      ∃ r, s.finish w path t = some r ∧ r.count = count := by
    constructor
    · rintro ⟨k, ends⟩
      have last := ends (k + 1) (Nat.le_succ k)
      rwa [scanLoop_finish path all.ge] at last
    · rintro ⟨r, ends⟩
      refine ⟨1, fun fuel enough => ?_⟩
      obtain ⟨fuel, rfl⟩ := Nat.exists_eq_add_of_le' enough
      exact ⟨r, (scanLoop_finish path all.ge fuel).trans ends.1, ends.2⟩
  rw [once]
  constructor
  · rintro ⟨r, ends, rfl⟩
    refine ⟨Walking.finish_count path ends, fun none_ => ?_⟩
    rw [Walking.finish, if_pos none_] at ends
    obtain ⟨⟨mount, index⟩, under, made⟩ := Option.bind_eq_some_iff.mp ends
    obtain ⟨result, expanded, -⟩ := Option.map_eq_some_iff.mp made
    exact ⟨mount, index, under, (expand_returns_iff ample modest mount t _ (top mount index under)).mp ⟨result, expanded⟩⟩
  · rintro ⟨rfl, known⟩
    have finish : ∃ r, s.finish w path t = some r := by
      rw [Walking.finish]
      split
      · next none_ =>
        obtain ⟨mount, index, under, reply⟩ := known none_
        obtain ⟨result, made⟩ := (expand_returns_iff ample modest mount t _ (top mount index under)).mpr reply
        simp only [under, Option.bind_some, made, Option.map_some]
        exact ⟨_, rfl⟩
      · exact ⟨_, rfl⟩
    obtain ⟨r, ends⟩ := finish
    exact ⟨r, ends, Walking.finish_count path ends⟩

theorem scanLoop_missing_iff (t : VnodeTree) (s : Walking) (missing : Missing t path s mount index) (count : Nat) :
    (∃ k, ∀ fuel, k ≤ fuel → ∃ r, scanLoop w path fuel t s = some r ∧ r.count = count) ↔
      if (t.node mount).channelNode.isSome then
        count = s.i ∧ w.reply t mount (t.request mount (path.drop index)) = some none
      else ∃ found, count = index + found ∧
        Settles (fun fid newFid =>
            (w.answer (t.node mount).mqId ((path.drop index).map Pstring.chars) fid newFid).map List.length)
          (path.length - index) ((t.node mount).qid.id.setWidth 32) t.idCount (s.i - index) found := by
  split
  · next channel =>
    have some_ : (t.node mount).channelNode ≠ none := Option.isSome_iff_ne_none.mp channel
    rcases Drivers.reply_channel (w := w) mount t (t.request mount (path.drop index)) missing.top some_ with fault | refused
    · rw [fault]
      constructor
      · rintro ⟨k, ends⟩
        obtain ⟨r, ends, -⟩ := ends (k + 1) (Nat.le_succ k)
        rw [missing.asks, expand, fault] at ends
        cases ends
      · rintro ⟨-, refused⟩
        cases refused
    · constructor
      · rintro ⟨k, always⟩
        obtain ⟨r, ends, rfl⟩ := always (k + 1) (Nat.le_succ k)
        obtain ⟨r', ends', count⟩ := missing.refused path mount index refused k
        obtain rfl : r' = r := Option.some.inj (ends'.symm.trans ends)
        exact ⟨count, refused⟩
      · rintro ⟨rfl, -⟩
        refine ⟨1, fun fuel enough => ?_⟩
        obtain ⟨fuel, rfl⟩ := Nat.exists_eq_add_of_le' enough
        exact missing.refused path mount index refused fuel
  · next none_ =>
    have direct : (t.node mount).channelNode = none := by simpa using none_
    constructor
    · rintro ⟨k, always⟩
      obtain ⟨r, ends, rfl⟩ := always k (Nat.le_refl k)
      obtain ⟨found, settles, is⟩ := settles_of_scanLoop ample modest path mount index _ k t s missing direct rfl r ends
      exact ⟨found, is, settles⟩
    · rintro ⟨found, rfl, settles⟩
      exact scanLoop_of_settles ample modest path mount index _ settles t s missing direct rfl rfl rfl rfl

end Rounds

theorem eventually_sub {P : Nat → Prop} (d : Nat) :
    (∃ k, ∀ fuel, k ≤ fuel → P (fuel - d)) ↔ ∃ k, ∀ fuel, k ≤ fuel → P fuel := by
  constructor
  · rintro ⟨k, holds⟩
    refine ⟨k, fun fuel enough => ?_⟩
    have shifted := holds (fuel + d) (by omega)
    rwa [Nat.add_sub_cancel] at shifted
  · rintro ⟨k, holds⟩
    exact ⟨k + d, fun fuel enough => holds (fuel - d) (by omega)⟩

/-- The walk over the vnodes that are there, and the answers of the driver at the first that is not, come to so many
elements. A mount with a channel has no mount of its own, whose fid would be read from. -/
def Settled (w : Drivers) (t : VnodeTree) (path : List Pstring) (count : Nat) : Prop :=
  let T := trail (vnodeFindChild t) [] path
  if T.length = path.length then
    count = path.length ∧ ((t.node (T.getLastD [])).qid.id = nofid.setWidth 64 →
      ∃ mount index, lastMount t (([] :: T).take T.length) = some (mount, index) ∧
        w.reply t mount (t.request mount (path.drop index)) ≠ none)
  else ∃ mount index, lastMount t ([] :: T) = some (mount, index) ∧
    if (t.node mount).channelNode.isSome then
      count = T.length ∧ w.reply t mount (t.request mount (path.drop index)) = some none
    else ∃ found, count = index + found ∧
      Settles (fun fid newFid =>
          (w.answer (t.node mount).mqId ((path.drop index).map Pstring.chars) fid newFid).map List.length)
        (path.length - index) ((t.node mount).qid.id.setWidth 32) t.idCount (T.length - index) found

theorem Walking.at_start {t : VnodeTree} {path : List Pstring} {mount : VnodeId} {index : Nat} :
    let T := trail (vnodeFindChild t) [] path
    ([] :: T)[index]? = some mount → (t.node mount).mountNode = none → AtVnode t path (start.along t T) mount index := by
  intro T on top
  obtain ⟨rest, end_⟩ := trail_from (vnodeFindChild t) [] mount path index on
  have small : index < T.length + 1 := (List.getElem?_eq_some_iff.mp on).1
  have place : (start.along t T).i = T.length := (along_i t start T).trans (Nat.zero_add _)
  have depth := trail_depth (vnodeFindChild_descends t) [] mount path index on
  refine ⟨top, depth.trans (Nat.zero_add index), ?_, ?_⟩
  · rw [rest, List.length_drop, place]
    exact Nat.add_sub_of_le (Nat.le_of_lt_succ small)
  · rw [rest, end_, along_vnode]
    rfl

theorem Walking.missing_start {t : VnodeTree} {path : List Pstring} {mount : VnodeId} {index : Nat} :
    let T := trail (vnodeFindChild t) [] path
    T.length < path.length → lastMount t ([] :: T) = some (mount, index) →
      Missing t path (start.along t T) mount index := by
  intro T inside last
  obtain ⟨on, top⟩ := lastMount_some last
  have place : (start.along t T).i = T.length := (along_i t start T).trans (Nat.zero_add _)
  exact ⟨at_start on top, (start_mount t T).1.trans last, by rwa [place]⟩

theorem vnodeScan_counts_iff (w : Drivers) (ample : w.Ample) (modest : w.Modest) (t : VnodeTree)
    (rooted : (t.node []).mountNode = none) (path : List Pstring) (count : Nat) :
    (∃ k, ∀ fuel, k ≤ fuel → ∃ r, vnodeScan w path fuel t = some r ∧ r.count = count) ↔ Settled w t path count := by
  have walk (fuel : Nat) : vnodeScan w path fuel t = scanLoop w path
      (fuel - (trail (vnodeFindChild t) [] path).length) t (Walking.start.along t (trail (vnodeFindChild t) [] path)) :=
    scanLoop_along w path t Walking.start fuel
  have place := Walking.along_i t Walking.start (trail (vnodeFindChild t) [] path)
  rw [show Walking.start.i = 0 from rfl, Nat.zero_add] at place
  have long := trail_length_le (vnodeFindChild t) [] path
  have path_ := Walking.along_vnode t Walking.start (trail (vnodeFindChild t) [] path)
  simp only [walk]
  rw [eventually_sub (P := fun fuel => ∃ r, scanLoop w path fuel t _ = some r ∧ r.count = count), Settled]
  split
  · next all =>
    have mounts := (Walking.start_mount t (trail (vnodeFindChild t) [] path)).2
    rw [scanLoop_finish_iff ample modest path t _ (place.trans all), path_, mounts]
    · rfl
    · intro mount index under
      exact (lastMount_some (mounts.symm.trans under)).2
  · next fewer =>
    obtain ⟨mount, index, last⟩ := lastMount_root t rooted (trail (vnodeFindChild t) [] path)
    have missing := Walking.missing_start (Nat.lt_of_le_of_ne long fewer) last
    rw [scanLoop_missing_iff ample modest path mount index t _ missing, place]
    constructor
    · exact fun settled => ⟨mount, index, last, settled⟩
    · rintro ⟨mount', index', last', settled⟩
      obtain ⟨rfl, rfl⟩ := Prod.mk.inj (Option.some.inj (last.symm.trans last'))
      exact settled

-- The child that has the name.
def exactChild (t : VnodeTree) (v : VnodeId) (name : Pstring) : Option VnodeId :=
  ((List.range (t.node v).childrenNo).find? fun i =>
    (t.node (i :: v)).name.any fun s => s.chars = name.chars).map (· :: v)

/-- The elements that exist: those that are there, and those that the driver finds below the mount. -/
def existing (w : Drivers) (t : VnodeTree) (path : List Pstring) : Nat :=
  let T := trail (exactChild t) [] path
  if T.length = path.length then path.length
  else
    match lastMount t ([] :: T) with
    | none => T.length
    | some (mount, index) =>
      match w.reply t mount (t.request mount (path.drop index)) with
      | some (some qs) => max T.length (index + qs.length)
      | _ => T.length

def WalkEnds (w : Drivers) (t : VnodeTree) (path : List Pstring) : Prop :=
  ∃ k, ∀ fuel, k ≤ fuel → ∃ r, vnodeScan w path fuel t = some r ∧ r.count = existing w t path

theorem vnodeScan_ends_iff (w : Drivers) (ample : w.Ample) (modest : w.Modest) (t : VnodeTree)
    (rooted : (t.node []).mountNode = none) (path : List Pstring) :
    WalkEnds w t path ↔ Settled w t path (existing w t path) :=
  vnodeScan_counts_iff w ample modest t rooted path (existing w t path)

def Pstring.of (chars : List Byte) : Pstring := ⟨BitVec.ofNat 16 chars.length, fun i => chars.getD i 0⟩

-- The root and the mount "boot" in it.
def bootTree (id : BitVec 64) : VnodeTree where
  node v :=
    if v = [] then ⟨none, ⟨0, 0, 0⟩, none, none, 1, -1⟩
    else ⟨some (Pstring.of [98, 111, 111, 116]), ⟨0, 0, id⟩, none, none, 0, 4⟩
  idCount := 2

-- A driver in whose tree only the first of the elements exists.
def firstOnly : Drivers where
  walk _ r := some ((r.wname.take 1).map fun _ => ⟨0, 0, nofid.setWidth 64⟩)
  write _ _ := false
  read _ _ _ := none
  room _ := true
  copied _ := true
  behind _ _ := 0

theorem firstOnly_ample : firstOnly.Ample := fun _ => ⟨rfl, rfl⟩

theorem firstOnly_modest : firstOnly.Modest := by
  intro q r qs is
  obtain rfl := Option.some.inj is
  rw [List.length_map]
  exact List.length_take_le' 1 r.wname

theorem firstOnly_ends : WalkEnds firstOnly (bootTree 1) [.of [98, 111, 111, 116], .of [100]] := by
  refine (vnodeScan_ends_iff firstOnly firstOnly_ample firstOnly_modest (bootTree 1) rfl _).mpr ?_
  rw [Settled, if_neg (by decide)]
  exact ⟨[0], 1, by decide, by rw [if_neg (by decide)]; exact ⟨1, by decide, .full (by decide)⟩⟩

/-- /boot/d/x, where there is a directory d and nothing in it. -/
theorem firstOnly_repeats : ¬ WalkEnds firstOnly (bootTree 1) [.of [98, 111, 111, 116], .of [100], .of [120]] := by
  intro ends
  have settled := (vnodeScan_counts_iff firstOnly firstOnly_ample firstOnly_modest (bootTree 1) rfl _ _).mp ends
  rw [Settled, if_neg (by decide)] at settled
  obtain ⟨mount, index, last, settled⟩ := settled
  obtain ⟨rfl, rfl⟩ : mount = [0] ∧ index = 1 := by
    have known : lastMount (bootTree 1) ([] :: trail (vnodeFindChild (bootTree 1)) []
      [.of [98, 111, 111, 116], .of [100], .of [120]]) = some ([0], 1) := by decide
    exact Prod.mk.inj (Option.some.inj (last.symm.trans known))
  rw [if_neg (by decide)] at settled
  obtain ⟨found, -, settles⟩ := settled
  exact not_settles (fun fid newFid => ⟨1, rfl, by decide⟩) settles

end Anthill
