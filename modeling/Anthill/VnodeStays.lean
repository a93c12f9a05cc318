import Anthill.VnodeWalk

set_option autoImplicit false

namespace Anthill

/-- Every vnode is still there, under its name. -/
structure VnodeTree.Stays (t t' : VnodeTree) : Prop where
  present : ∀ v, t.Present v → t'.Present v
  name : ∀ v, t.Present v → (t'.node v).name = (t.node v).name

namespace VnodeTree

variable {t t' t'' : VnodeTree}

theorem Stays.refl (t : VnodeTree) : t.Stays t := ⟨fun _ present => present, fun _ _ => rfl⟩

theorem Stays.trans (first : t.Stays t') (second : t'.Stays t'') : t.Stays t'' where
  present v present := second.present v (first.present v present)
  name v present := (second.name v (first.present v present)).trans (first.name v present)

theorem Present.above {v : VnodeId} {i : Nat} (present : t.Present (i :: v)) : t.Present v := present.1

/-- The names that lead to a vnode. -/
theorem Stays.pathOf (stays : t.Stays t') {v : VnodeId} (present : t.Present v) : t'.pathOf v = t.pathOf v := by
  induction v with
  | nil => rfl
  | cons i v ih => rw [VnodeTree.pathOf, VnodeTree.pathOf, ih present.above, stays.name _ present]

/-- No children are taken away, and no names change. -/
theorem Stays.of_nodes (count : ∀ v, t.Present v → (t.node v).childrenNo ≤ (t'.node v).childrenNo)
    (name : ∀ v, t.Present v → (t'.node v).name = (t.node v).name) : t.Stays t' where
  present v present := by
    induction v with
    | nil => trivial
    | cons i v ih => exact ⟨ih present.above, present.2.trans_le (count v present.above)⟩
  name := name

theorem stays_update (t : VnodeTree) (v : VnodeId) {f : Vnode → Vnode}
    (count : (t.node v).childrenNo ≤ (f (t.node v)).childrenNo) (name : (f (t.node v)).name = (t.node v).name) :
    t.Stays (t.update v f) := by
  refine .of_nodes (fun u _ => ?_) fun u _ => ?_ <;> by_cases same : u = v
  · rwa [same, update_self]
  · rw [t.update_other v f same]
  · rw [same, update_self, name]
  · rw [t.update_other v f same]

/-- The child that vnode_add_child makes room for was not there before. -/
theorem stays_add {w : Drivers} {v child : VnodeId} (made : vnodeAddChild w t v = some (child, t'))
    (f : Vnode → Vnode) : t.Stays (t'.update child f) ∧ (t.Present v → (t'.update child f).Present child) := by
  rw [vnodeAddChild] at made
  split at made
  · obtain ⟨rfl, rfl⟩ := Prod.mk.inj (Option.some.inj made)
    have other {u : VnodeId} (present : t.Present u) : u ≠ (t.node v).childrenNo :: v := by
      rintro rfl
      exact Nat.lt_irrefl _ present.2
    have longer : v ≠ (t.node v).childrenNo :: v := (List.cons_ne_self _ _).symm
    have stays : t.Stays ((t.update v fun x => { x with childrenNo := x.childrenNo + 1 }).update
        ((t.node v).childrenNo :: v) f) := by
      refine .of_nodes (fun u present => ?_) fun u present => ?_ <;>
        rw [update_other _ _ _ (other present)] <;> by_cases same : u = v
      · rw [same, update_self]
        exact Nat.le_succ _
      · rw [t.update_other v _ same]
      · rw [same, update_self]
      · rw [t.update_other v _ same]
    refine ⟨stays, fun present => ⟨stays.present v present, ?_⟩⟩
    rw [update_other _ _ _ longer, update_self]
    exact Nat.lt_succ_self _
  · cases made

end VnodeTree

theorem vnodeFindChild_present {t : VnodeTree} {v child : VnodeId} {name : Pstring} (present : t.Present v)
    (found : vnodeFindChild t v name = some child) : t.Present child := by
  obtain ⟨i, hit, rfl⟩ := Option.map_eq_some_iff.mp found
  exact ⟨present, List.mem_range.mp (List.mem_of_find?_eq_some hit)⟩

/-- The vnodes stay, also where memory runs out on the way. -/
theorem expandLoop_stays {w : Drivers} {mount v : VnodeId} {t : VnodeTree} {es : List Pstring} {qs : List Qid}
    {r : VfsError × VnodeTree × VnodeId} (done : expandLoop w mount t v es qs = some r) :
    t.Stays r.2.1 ∧ (t.Present v → r.2.1.Present r.2.2) := by
  fun_induction expandLoop w mount t v es qs with
  | case1 es t v =>
    obtain rfl := Option.some.inj done
    exact ⟨.refl t, id⟩
  | case2 => cases done
  | case3 t v element elements qid wqid child found ih =>
    obtain ⟨stays, last⟩ := ih done
    exact ⟨stays, fun present => last (vnodeFindChild_present present found)⟩
  | case4 t v element elements qid wqid missing full =>
    obtain rfl := Option.some.inj done
    exact ⟨.refl t, id⟩
  | case5 t v element elements qid wqid missing child t' made ih =>
    obtain ⟨name, -, done⟩ := Option.bind_eq_some_iff.mp done
    obtain ⟨stays, last⟩ := ih name done
    obtain ⟨grown, there⟩ := VnodeTree.stays_add made fun _ => ⟨some name, qid, some mount, (t'.node mount).channelNode, 0,
      (t'.node v).mqId⟩
    exact ⟨grown.trans stays, fun present => last (there present)⟩

theorem expand_stays {w : Drivers} {t : VnodeTree} {mount : VnodeId} {es : List Pstring} {r : VfsError × VnodeTree}
    (done : expand w t mount es = some r) : t.Stays r.2 := by
  obtain ⟨reply, -, done⟩ := Option.bind_eq_some_iff.mp done
  have next : t.Stays { t with idCount := t.idCount + 1 } := .of_nodes (fun _ _ => Nat.le_refl _) fun _ _ => rfl
  cases reply with
  | none =>
    obtain rfl := Option.some.inj done
    exact next
  | some wqid =>
    obtain ⟨⟨err, t', v⟩, looped, rfl⟩ := Option.map_eq_some_iff.mp done
    have stays := next.trans (expandLoop_stays looped).1
    simp only
    split
    · exact stays.trans (VnodeTree.stays_update _ _ (Nat.le_refl _) rfl)
    · exact stays

/-- The vnode that a search has come to, and the one it returns. -/
theorem scanLoop_stays {w : Drivers} {path : List Pstring} {fuel : Nat} {t : VnodeTree} {s : Walking} {r : Scanned}
    (done : scanLoop w path fuel t s = some r) (present : t.Present s.vnode) :
    t.Stays r.tree ∧ ∀ v, r.node = some v → r.tree.Present v := by
  induction fuel generalizing t s with
  | zero => cases done
  | succ fuel ih =>
    rw [scanLoop] at done
    split at done
    · rw [Walking.finish] at done
      split at done
      · obtain ⟨⟨mount, index⟩, -, done⟩ := Option.bind_eq_some_iff.mp done
        obtain ⟨⟨err, t'⟩, expanded, rfl⟩ := Option.map_eq_some_iff.mp done
        have stays := expand_stays expanded
        refine ⟨stays, fun v is => ?_⟩
        obtain rfl := Option.some.inj is
        exact stays.present _ present
      · obtain rfl := Option.some.inj done
        refine ⟨.refl t, fun v is => ?_⟩
        obtain rfl := Option.some.inj is
        exact present
    · split at done
      · next child found => exact ih done (vnodeFindChild_present present found)
      · obtain ⟨⟨mount, index⟩, -, done⟩ := Option.bind_eq_some_iff.mp done
        obtain ⟨⟨err, t'⟩, expanded, done⟩ := Option.bind_eq_some_iff.mp done
        have stays := expand_stays expanded
        simp only at done stays
        split at done
        · obtain ⟨later, last⟩ := ih done (stays.present _ present)
          exact ⟨stays.trans later, last⟩
        · obtain rfl := Option.some.inj done
          exact ⟨stays, fun v is => by cases is⟩

theorem vnodeScan_stays {w : Drivers} {path : List Pstring} {fuel : Nat} {t : VnodeTree} {r : Scanned}
    (done : vnodeScan w path fuel t = some r) : t.Stays r.tree ∧ ∀ v, r.node = some v → r.tree.Present v :=
  scanLoop_stays done trivial

end Anthill
