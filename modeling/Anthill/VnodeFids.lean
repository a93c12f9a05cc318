import Anthill.VnodeWalk

set_option autoImplicit false

namespace Anthill

-- The paths that the drivers behind the queues have bound fids to.
abbrev Fids := Int → BitVec 64 → Option (List (List Byte))

/-- A driver binds the new fid of a Twalk if it walks all the elements. -/
def Fids.walk (fids : Fids) (q : Int) (fid newFid : BitVec 64) (names : List (List Byte)) (all : Bool) : Fids :=
  fun q' id => if all ∧ q' = q ∧ id = newFid then (fids q fid).map (· ++ names) else fids q' id

def Fids.Has (fids : Fids) (q : Int) (id : BitVec 64) (path : List (Option (List Byte))) : Prop :=
  id = nofid.setWidth 64 ∨ ∃ p, fids q id = some p ∧ p.map some = path

/-- The fid of a vnode under a mount is bound to the vnode's path in the tree of the driver, in which a mount has the path
`root`. -/
def Fids.Knows (fids : Fids) (root : VnodeId → List (List Byte)) (t : VnodeTree) (v : VnodeId) : Prop :=
  ∀ mount, (t.node v).mountNode = some mount →
    fids.Has (t.node v).mqId (t.node v).qid.id ((root mount).map some ++ (t.pathOf v).drop mount.length)

def Fids.KnowsAll (fids : Fids) (root : VnodeId → List (List Byte)) (t : VnodeTree) : Prop :=
  ∀ v, t.Present v → fids.Knows root t v

theorem VnodeTree.Present.suffix {t : VnodeTree} {u v : VnodeId} (present : t.Present v) (above : u <:+ v) :
    t.Present u := by
  induction v with
  | nil =>
    rw [List.suffix_nil.mp above]
    trivial
  | cons i v ih =>
    rcases List.suffix_cons_iff.mp above with rfl | above
    · exact present
    · exact ih present.1 above

theorem VnodeTree.Present.old {t : VnodeTree} {u v : VnodeId} (present : t.Present u) :
    ¬ ((t.node v).childrenNo :: v) <:+ u := fun above => absurd (present.suffix above).2 (Nat.lt_irrefl _)

section Grown

variable {w : Drivers} {mount v : VnodeId} {t mid : VnodeTree} {es : List Pstring} {qs : List Qid}
  (grown : Grown w mount v t mid es qs)

include grown

theorem Grown.node_old {u : VnodeId} (present : t.Present u) :
    mid.node u = { t.node u with childrenNo := (mid.node u).childrenNo } := by
  by_cases same : u = v
  · rw [same, grown.parent]
  · rw [grown.kept u same (present.old)]

theorem Grown.present_kept {u : VnodeId} (present : t.Present u) : mid.Present u := by
  induction u with
  | nil => trivial
  | cons i u ih =>
    refine ⟨ih present.1, present.2.trans_le ?_⟩
    by_cases same : u = v
    · rw [same, grown.parent]
      exact Nat.le_succ _
    · rw [grown.kept u same (present.1.old)]

theorem Grown.made_children (short : qs.length ≤ es.length) {j : Nat} (small : j < qs.length) :
    (mid.node (eldest ((t.node v).childrenNo :: v) j)).childrenNo = if j + 1 < qs.length then 1 else 0 := by
  rw [grown.made j _ _ (List.getElem?_eq_getElem (small.trans_le short)) (List.getElem?_eq_getElem small)]

theorem Grown.present_made (short : qs.length ≤ es.length) (at_ : t.Present v) {j : Nat} (small : j < qs.length) :
    mid.Present (eldest ((t.node v).childrenNo :: v) j) := by
  induction j with
  | zero =>
    refine ⟨grown.present_kept at_, ?_⟩
    rw [grown.parent]
    exact Nat.lt_succ_self _
  | succ j ih =>
    rw [eldest_cons]
    refine ⟨ih (Nat.lt_of_succ_lt small), ?_⟩
    rw [grown.made_children short (Nat.lt_of_succ_lt small), if_pos small]
    exact Nat.one_pos

theorem Grown.present_iff (short : qs.length ≤ es.length) (some_ : 0 < qs.length) (at_ : t.Present v) (u : VnodeId) :
    mid.Present u ↔ t.Present u ∨ ∃ j, j < qs.length ∧ u = eldest ((t.node v).childrenNo :: v) j := by
  constructor
  · intro present
    induction u with
    | nil => exact .inl trivial
    | cons i u ih =>
      obtain ⟨above, small⟩ := present
      rcases ih above with old | ⟨j, inside, rfl⟩
      · by_cases same : u = v
        · subst same
          rw [grown.parent] at small
          rcases Nat.lt_succ_iff_lt_or_eq.mp small with there | rfl
          · exact .inl ⟨old, there⟩
          · exact .inr ⟨0, some_, rfl⟩
        · rw [grown.kept u same old.old] at small
          exact .inl ⟨old, small⟩
      · rw [grown.made_children short inside] at small
        split at small
        · next more =>
          obtain rfl := Nat.lt_one_iff.mp small
          exact .inr ⟨j + 1, more, rfl⟩
        · exact absurd small (Nat.not_lt_zero i)
  · rintro (old | ⟨j, small, rfl⟩)
    · exact grown.present_kept old
    · exact grown.present_made short at_ small

theorem Grown.path_old {u : VnodeId} (present : t.Present u) : mid.pathOf u = t.pathOf u :=
  VnodeTree.pathOf_congr u fun _ above => by rw [grown.node_old (present.suffix above)]

theorem Grown.path_made (short : qs.length ≤ es.length) (at_ : t.Present v) {j : Nat} (small : j < qs.length) :
    mid.pathOf (eldest ((t.node v).childrenNo :: v) j) =
      t.pathOf v ++ (es.take (j + 1)).map fun e => some e.chars := by
  have name (j : Nat) (small : j < qs.length) :
      (mid.node (eldest ((t.node v).childrenNo :: v) j)).name.map Pstring.chars = es[j]?.map Pstring.chars := by
    have inside := small.trans_le short
    rw [grown.made j _ _ (List.getElem?_eq_getElem inside) (List.getElem?_eq_getElem small), Option.map_some,
      Drivers.copy_chars, List.getElem?_eq_getElem inside, Option.map_some]
  induction j with
  | zero =>
    refine (congrArg₂ (· ++ ·) (grown.path_old at_) (congrArg ([·]) (name 0 small))).trans ?_
    rw [List.take_one, List.head?_eq_getElem?]
    cases is : es[0]? with
    | none =>
      have := List.getElem?_eq_none_iff.mp is
      omega
    | some e => rfl
  | succ j ih =>
    have inside : j + 1 < es.length := small.trans_le short
    have last := name (j + 1) small
    rw [List.getElem?_eq_getElem inside] at last
    rw [eldest_cons, VnodeTree.pathOf, ih (Nat.lt_of_succ_lt small), ← eldest_cons, last,
      List.take_succ_eq_append_getElem inside, List.map_append, List.append_assoc]
    rfl

end Grown

theorem VnodeTree.present_congr {t t' : VnodeTree} (same : ∀ u, (t'.node u).childrenNo = (t.node u).childrenNo)
    (v : VnodeId) : t'.Present v ↔ t.Present v := by
  induction v with
  | nil => exact Iff.rfl
  | cons i v ih => exact and_congr ih (by rw [same v])

theorem Fids.knows_congr (fids : Fids) (root : VnodeId → List (List Byte)) {t t' : VnodeTree} {v : VnodeId}
    (mount : (t'.node v).mountNode = (t.node v).mountNode) (queue : (t'.node v).mqId = (t.node v).mqId)
    (id : (t'.node v).qid.id = (t.node v).qid.id) (path : t'.pathOf v = t.pathOf v) :
    fids.Knows root t' v ↔ fids.Knows root t v := by
  rw [Knows, Knows, mount, queue, id, path]

-- What has another fid stays known.
theorem Fids.Knows.walk {fids : Fids} {root : VnodeId → List (List Byte)} {t : VnodeTree} {v : VnodeId}
    (known : fids.Knows root t v) (q : Int) (fid newFid : BitVec 64) (names : List (List Byte)) (all : Bool)
    (other : (t.node v).mqId = q → (t.node v).qid.id = newFid → (fids.walk q fid newFid names all).Knows root t v) :
    (fids.walk q fid newFid names all).Knows root t v := by
  by_cases same : (t.node v).mqId = q ∧ (t.node v).qid.id = newFid
  · exact other same.1 same.2
  · intro mount under
    rcases known mount under with none_ | ⟨p, bound, is⟩
    · exact .inl none_
    · refine .inr ⟨p, ?_, is⟩
      rw [Fids.walk, if_neg fun bind => same bind.2, bound]

section Expand

variable (t : VnodeTree) (mount : VnodeId) (es : List Pstring) (qs : List Qid) (fids : Fids)
  (root : VnodeId → List (List Byte))

-- The fids that the driver knows after its answer.
def walkedFids : Fids :=
  fids.walk (t.node mount).mqId (t.node mount).qid.id (t.idCount.setWidth 64) (es.map Pstring.chars)
    (qs.length == es.length)

/-- The new fid is known for the vnode that gets it, be it there or made, and so are the fids of the vnodes that are made
on the way; no other vnode has the new fid, unless for the same path; and the mount does not get it. -/
structure FidsFit : Prop where
  others : ∀ v, t.Present v → v ≠ t.reached mount es qs.length → (t.node v).mqId = (t.node mount).mqId →
    (t.node v).qid.id = t.idCount.setWidth 64 → (walkedFids t mount es qs fids).Knows root t v
  there : qs.length ≤ (trail (vnodeFindChild t) mount es).length →
    (walkedFids t mount es qs fids).Knows root (t.setId (t.reached mount es qs.length) t.idCount)
      (t.reached mount es qs.length)
  made : let T := trail (vnodeFindChild t) mount es
    ∀ j q, (qs.drop T.length)[j]? = some q → (walkedFids t mount es qs fids).Has (t.node (T.getLastD mount)).mqId
      (if T.length + j + 1 = qs.length then t.idCount.setWidth 64 else q.id)
      ((root mount).map some ++ ((t.pathOf (T.getLastD mount)).drop mount.length ++
        ((es.drop T.length).take (j + 1)).map fun e => some e.chars))
  mount : qs.length = 0 → es = [] ∨ (t.node mount).qid.id = t.idCount.setWidth 64

variable {t mount es qs fids root}

theorem reached_present (present : t.Present mount) (cached : qs.length ≤ (trail (vnodeFindChild t) mount es).length) :
    t.Present (t.reached mount es qs.length) := by
  rw [t.reached_cached mount es _ cached]
  refine VnodeTree.Present.suffix ?_ (ancestor_suffix _ _)
  refine trail_present t mount es present _ ?_
  exact List.getLastD_mem_cons

theorem knowsAll_cached (known : fids.KnowsAll root t) (present : t.Present mount)
    (cached : qs.length ≤ (trail (vnodeFindChild t) mount es).length) {t' : VnodeTree}
    (is : t'.node = (t.setId (t.reached mount es qs.length) t.idCount).node) :
    (walkedFids t mount es qs fids).KnowsAll root t' ↔
      (∀ v, t.Present v → v ≠ t.reached mount es qs.length → (t.node v).mqId = (t.node mount).mqId →
        (t.node v).qid.id = t.idCount.setWidth 64 → (walkedFids t mount es qs fids).Knows root t v) ∧
      (walkedFids t mount es qs fids).Knows root (t.setId (t.reached mount es qs.length) t.idCount)
        (t.reached mount es qs.length) := by
  have node (u : VnodeId) := (congrFun is u).trans (t.setId_node (t.reached mount es qs.length) t.idCount u)
  have presents (u : VnodeId) : t'.Present u ↔ t.Present u := VnodeTree.present_congr (fun u => by rw [node]) u
  have paths (u : VnodeId) : t'.pathOf u = t.pathOf u := VnodeTree.pathOf_congr u fun v _ => by rw [node]
  have other (v : VnodeId) (different : v ≠ t.reached mount es qs.length) :
      (walkedFids t mount es qs fids).Knows root t' v ↔ (walkedFids t mount es qs fids).Knows root t v :=
    Fids.knows_congr _ root (by rw [node]) (by rw [node]) (by rw [node, if_neg different]) (paths v)
  have self : (walkedFids t mount es qs fids).Knows root t' (t.reached mount es qs.length) ↔
      (walkedFids t mount es qs fids).Knows root (t.setId (t.reached mount es qs.length) t.idCount)
        (t.reached mount es qs.length) :=
    Fids.knows_congr _ root (by rw [is]) (by rw [is]) (by rw [is]) (VnodeTree.pathOf_congr _ fun v _ => by rw [is])
  constructor
  · intro all
    refine ⟨fun v old different _ _ => (other v different).mp (all v ((presents v).mpr old)), ?_⟩
    exact self.mp (all _ ((presents _).mpr (reached_present present cached)))
  · rintro ⟨others, there⟩ v old
    by_cases same : v = t.reached mount es qs.length
    · rw [same]
      exact self.mpr there
    · have old := (presents v).mp old
      exact (other v same).mpr ((known v old).walk _ _ _ _ _ (others v old same))

section Set

variable {w : Drivers} {mid t' : VnodeTree} {v last : VnodeId} {below : List Pstring} {wqid : List Qid} {newFid : BitVec 32}
  (grown : Grown w mount v t mid below wqid) (is : t'.node = (mid.setId last newFid).node)

include grown is

-- The fids of the vnodes from before stay, but for the one that the new fid is set for.
theorem Grown.knows_old {u : VnodeId} (there : t.Present u) (different : u ≠ last) :
    fids.Knows root t' u ↔ fids.Knows root t u := by
  have node (u : VnodeId) := (congrFun is u).trans (mid.setId_node last newFid u)
  have path : t'.pathOf u = mid.pathOf u := VnodeTree.pathOf_congr u fun v _ => by rw [node]
  have same := grown.node_old there
  exact Fids.knows_congr _ root (by rw [node, same]) (by rw [node, same]) (by rw [node, if_neg different, same])
    (path.trans (grown.path_old there))

theorem Grown.knows_made (fits : wqid.length ≤ below.length) (at_ : t.Present v) (above : mount <:+ v) (j : Nat) (q : Qid)
    (qid : wqid[j]? = some q) : fids.Knows root t' (eldest ((t.node v).childrenNo :: v) j) ↔
      fids.Has (t.node v).mqId
        (if eldest ((t.node v).childrenNo :: v) j = last then newFid.setWidth 64 else q.id)
        ((root mount).map some ++ ((t.pathOf v).drop mount.length ++ (below.take (j + 1)).map fun e => some e.chars)) := by
  have node (u : VnodeId) := (congrFun is u).trans (mid.setId_node last newFid u)
  have small := (List.getElem?_eq_some_iff.mp qid).1
  have made := grown.made j _ q (List.getElem?_eq_getElem (small.trans_le fits)) qid
  have path : t'.pathOf (eldest ((t.node v).childrenNo :: v) j) = mid.pathOf (eldest ((t.node v).childrenNo :: v) j) :=
    VnodeTree.pathOf_congr _ fun v _ => by rw [node]
  have dropped : (t.pathOf v ++ (below.take (j + 1)).map fun e => some e.chars).drop mount.length =
      (t.pathOf v).drop mount.length ++ (below.take (j + 1)).map fun e => some e.chars :=
    List.drop_append_of_le_length (by rw [t.pathOf_length]; exact above.length_le)
  rw [Fids.Knows, node, made, path.trans (grown.path_made fits at_ small)]
  simp only [Option.some.injEq, forall_eq', dropped]

end Set

theorem knowsAll_made {w : Drivers} {mid : VnodeTree} (known : fids.KnowsAll root t) (present : t.Present mount)
    (longer : (trail (vnodeFindChild t) mount es).length < qs.length) (short : qs.length ≤ es.length)
    (grown : Grown w mount ((trail (vnodeFindChild t) mount es).getLastD mount) t mid
      (es.drop (trail (vnodeFindChild t) mount es).length) (qs.drop (trail (vnodeFindChild t) mount es).length))
    {t' : VnodeTree} (is : t'.node = (mid.setId (t.reached mount es qs.length) t.idCount).node) :
    (walkedFids t mount es qs fids).KnowsAll root t' ↔
      (∀ v, t.Present v → v ≠ t.reached mount es qs.length → (t.node v).mqId = (t.node mount).mqId →
        (t.node v).qid.id = t.idCount.setWidth 64 → (walkedFids t mount es qs fids).Knows root t v) ∧
      ∀ j q, (qs.drop (trail (vnodeFindChild t) mount es).length)[j]? = some q →
        (walkedFids t mount es qs fids).Has (t.node ((trail (vnodeFindChild t) mount es).getLastD mount)).mqId
          (if (trail (vnodeFindChild t) mount es).length + j + 1 = qs.length then t.idCount.setWidth 64 else q.id)
          ((root mount).map some ++ ((t.pathOf ((trail (vnodeFindChild t) mount es).getLastD mount)).drop mount.length ++
            ((es.drop (trail (vnodeFindChild t) mount es).length).take (j + 1)).map fun e => some e.chars)) := by
  have at_ : t.Present ((trail (vnodeFindChild t) mount es).getLastD mount) :=
    trail_present t mount es present _ List.getLastD_mem_cons
  have above := trail_suffix (vnodeFindChild_descends t) mount es
  have reached : t.reached mount es qs.length = eldest ((t.node ((trail (vnodeFindChild t) mount es).getLastD mount)).childrenNo ::
      (trail (vnodeFindChild t) mount es).getLastD mount) (qs.length - (trail (vnodeFindChild t) mount es).length - 1) := by
    rw [VnodeTree.reached, if_neg (Nat.not_le_of_lt longer)]
  generalize trail (vnodeFindChild t) mount es = T at *
  generalize T.getLastD mount = v at *
  have long : (qs.drop T.length).length = qs.length - T.length := List.length_drop
  have fits : (qs.drop T.length).length ≤ (es.drop T.length).length := by
    rw [List.length_drop, List.length_drop]
    omega
  have presents (u : VnodeId) : t'.Present u ↔ t.Present u ∨
      ∃ j, j < (qs.drop T.length).length ∧ u = eldest ((t.node v).childrenNo :: v) j :=
    (VnodeTree.present_congr (fun u => by rw [is, VnodeTree.setId_node]) u).trans (grown.present_iff fits (by omega) at_ u)
  have different {u : VnodeId} (old : t.Present u) : u ≠ t.reached mount es qs.length := fun same => by
    refine old.old (v := v) ?_
    rw [same, reached]
    exact List.suffix_append _ _
  have last (j : Nat) (small : j < (qs.drop T.length).length) :
      eldest ((t.node v).childrenNo :: v) j = t.reached mount es qs.length ↔ T.length + j + 1 = qs.length := by
    rw [reached]
    constructor
    · intro same
      have lengths := congrArg List.length same
      rw [eldest_length, eldest_length] at lengths
      omega
    · intro end_
      congr 1
      omega
  have new (j : Nat) (q : Qid) (qid : (qs.drop T.length)[j]? = some q) :
      (walkedFids t mount es qs fids).Knows root t' (eldest ((t.node v).childrenNo :: v) j) ↔ _ :=
    grown.knows_made is fits at_ above j q qid
  constructor
  · intro all
    refine ⟨fun u there other _ _ => (grown.knows_old is there other).mp (all u ((presents u).mpr (.inl there))), ?_⟩
    intro j q qid
    have small := (List.getElem?_eq_some_iff.mp qid).1
    have known := (new j q qid).mp (all _ ((presents _).mpr (.inr ⟨j, small, rfl⟩)))
    simp only [last j small] at known
    exact known
  · rintro ⟨others, made⟩ u there
    rcases (presents u).mp there with before | ⟨j, small, rfl⟩
    · have other := different before
      exact (grown.knows_old is before other).mpr ((known u before).walk _ _ _ _ _ (others u before other))
    · have known := made j _ (List.getElem?_eq_getElem small)
      rw [new j _ (List.getElem?_eq_getElem small)]
      simp only [last j small]
      exact known

theorem mount_fid_iff {w : Drivers} {t' : VnodeTree} {mid : VnodeTree}
    (extended : Extended w mount { t with idCount := t.idCount + 1 } mid es qs)
    (is : t' = mid.setId (t.reached mount es qs.length) t.idCount) :
    (es = [] ∨ (t'.node mount).qid.id = (t.node mount).qid.id) ↔
      (qs.length = 0 → es = [] ∨ (t.node mount).qid.id = t.idCount.setWidth 64) := by
  have node := extended.old mount (Nat.le_add_right _ _)
  rw [is, VnodeTree.setId_node, node]
  simp only [eq_comm (a := mount), VnodeTree.reached_eq_mount]
  by_cases none_ : qs.length = 0
  · simp only [none_, if_true, forall_const]
    exact or_congr Iff.rfl eq_comm
  · simp [none_]

theorem expand_fids_iff (w : Drivers) (t t' : VnodeTree) (mount : VnodeId) (es : List Pstring) (qs : List Qid)
    (fids : Fids) (root : VnodeId → List (List Byte)) (known : fids.KnowsAll root t) (present : t.Present mount)
    (reply : w.reply t mount (t.request mount es) = some (some qs)) (ok : expand w t mount es = some (.ok, t')) :
    ((walkedFids t mount es qs fids).KnowsAll root t' ∧
      (es = [] ∨ (t'.node mount).qid.id = (t.node mount).qid.id)) ↔ FidsFit t mount es qs fids root := by
  obtain ⟨qs', mid, reply', short, extended, is⟩ := expand_ok ok
  obtain rfl : qs = qs' := Option.some.inj (Option.some.inj (reply.symm.trans reply'))
  have fid := mount_fid_iff extended is
  rw [Extended] at extended
  change if qs.length ≤ (trail (vnodeFindChild t) mount es).length then _ else
    Grown w mount ((trail (vnodeFindChild t) mount es).getLastD mount) _ mid
      (es.drop (trail (vnodeFindChild t) mount es).length) (qs.drop (trail (vnodeFindChild t) mount es).length) at extended
  split at extended
  · next cached =>
    have nodes : t'.node = (t.setId (t.reached mount es qs.length) t.idCount).node := by
      rw [is, extended]
      rfl
    rw [knowsAll_cached known present cached nodes, fid]
    constructor
    · rintro ⟨⟨others, there⟩, mount_⟩
      refine ⟨others, fun _ => there, fun j q qid => ?_, mount_⟩
      rw [List.drop_eq_nil_of_le cached] at qid
      cases qid
    · exact fun fit => ⟨⟨fit.others, fit.there cached⟩, fit.mount⟩
  · next longer =>
    have grown : Grown w mount ((trail (vnodeFindChild t) mount es).getLastD mount) t { mid with idCount := t.idCount }
        (es.drop (trail (vnodeFindChild t) mount es).length) (qs.drop (trail (vnodeFindChild t) mount es).length) :=
      ⟨rfl, extended.kept, extended.parent, extended.made⟩
    have nodes : t'.node =
        (({ mid with idCount := t.idCount } : VnodeTree).setId (t.reached mount es qs.length) t.idCount).node := by
      rw [is]
      rfl
    rw [knowsAll_made known present (Nat.lt_of_not_le longer) short grown nodes, fid]
    constructor
    · rintro ⟨⟨others, made⟩, mount_⟩
      exact ⟨others, fun cached => absurd cached longer, made, mount_⟩
    · exact fun fit => ⟨⟨fit.others, fit.made⟩, fit.mount⟩

end Expand

-- The driver of "boot" knows the fid of the mount.
def bootFids : Fids := fun q id => if q = 4 ∧ id = 1 then some [] else none

theorem bootFids_known : bootFids.KnowsAll (fun _ => []) (bootTree 1) := by
  intro v _ mount under
  by_cases root : v = []
  · simp [bootTree, root] at under
  · simp [bootTree, root] at under

theorem firstOnly_binds : ∃ t', expand firstOnly (bootTree 1) [0] [.of [100]] = some (.ok, t') ∧
    (walkedFids (bootTree 1) [0] [.of [100]] [⟨0, 0, nofid.setWidth 64⟩] bootFids).KnowsAll (fun _ => []) t' ∧
    (t'.node [0]).qid.id = 1 := by
  obtain ⟨t', ok⟩ : ∃ t', expand firstOnly (bootTree 1) [0] [.of [100]] = some (.ok, t') := ⟨_, rfl⟩
  refine ⟨t', ok, ?_⟩
  have fit : FidsFit (bootTree 1) [0] [.of [100]] [⟨0, 0, nofid.setWidth 64⟩] bootFids fun _ => [] := by
    refine ⟨fun v _ _ _ new => ?_, fun cached => absurd cached (by decide), ?_, fun none_ => nomatch none_⟩
    · by_cases root : v = []
      · simp [bootTree, root] at new
      · simp [bootTree, root] at new
    · have absent : trail (vnodeFindChild (bootTree 1)) [0] [.of [100]] = [] := by decide
      simp only [absent]
      intro j q qid
      cases j with
      | zero =>
        obtain rfl := Option.some.inj qid
        exact .inr ⟨[[100]], by decide, by decide⟩
      | succ j => cases qid
  obtain ⟨known, fid⟩ := (expand_fids_iff firstOnly (bootTree 1) t' [0] [.of [100]] _ bootFids (fun _ => []) bootFids_known
    ⟨trivial, by decide⟩ rfl ok).mpr fit
  exact ⟨known, fid.resolve_left (List.cons_ne_nil _ _)⟩

/-- d/x, of which the driver walks d. It has not bound the fid that d is given. -/
theorem firstOnly_unbound : ∃ t', expand firstOnly (bootTree 1) [0] [.of [100], .of [120]] = some (.ok, t') ∧
    bootFids.KnowsAll (fun _ => []) (bootTree 1) ∧
    ¬ (walkedFids (bootTree 1) [0] [.of [100], .of [120]] [⟨0, 0, nofid.setWidth 64⟩] bootFids).KnowsAll (fun _ => []) t' := by
  refine ⟨_, rfl, bootFids_known, fun all => ?_⟩
  rcases all [0, 0] ⟨⟨trivial, by decide⟩, by decide⟩ [0] (by decide) with none_ | ⟨p, bound, -⟩
  · exact absurd none_ (by decide)
  · cases show (none : Option (List (List Byte))) = some p from bound

end Anthill
