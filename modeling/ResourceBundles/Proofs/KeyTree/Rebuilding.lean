import ResourceBundles.Proofs.KeyTree.Views
import ResourceBundles.Proofs.KeyTree.Walk

/-!
# Trees from their leaves

A tree can be built again from its leaves.  A node without a value has a child, which comes
right behind it in depth-first order, so the leaves call for all nodes in this order.  The
new tree has the old view, since every node keeps its children and their order, and it is
the tree that its own leaves build.
-/

namespace ResourceBundles.KeyTree

variable {es fs : List (Text × Text)} {ps : List Text} {p q v : Text} {i j : Nat}

/-! ## Depth-first orders of paths -/

/-- Paths in a depth-first order: the first top, the paths under it, and then the other tops
with what is under them. -/
inductive PathOrder (below : Text → List Text) : List Text → List Text → Prop
  | nil : PathOrder below [] []
  | cons {p : Text} {tops under behind : List Text} (hunder : PathOrder below (below p) under)
      (hbehind : PathOrder below tops behind) : PathOrder below (p :: tops) (p :: under ++ behind)

namespace PathOrder

variable {below : Text → List Text} {tops xs ys done : List Text}

theorem unique (hx : PathOrder below tops xs) (hy : PathOrder below tops ys) : xs = ys := by
  induction hx generalizing ys with
  | nil =>
      cases hy
      rfl
  | cons _ _ ihunder ihbehind =>
      cases hy with
      | cons hunder hbehind => rw [ihunder hunder, ihbehind hbehind]

theorem tops_sublist (h : PathOrder below tops xs) : tops.Sublist xs := by
  induction h with
  | nil => exact List.Sublist.slnil
  | cons _ _ _ ihbehind => exact (ihbehind.trans (List.sublist_append_right _ _)).cons_cons _

theorem below_sublist (h : PathOrder below tops xs) (hp : p ∈ xs) : (below p).Sublist xs := by
  induction h with
  | nil => exact absurd hp List.not_mem_nil
  | cons hunder _ ihunder ihbehind =>
      rcases List.mem_append.mp hp with hp | hp
      · apply List.sublist_append_of_sublist_left
        rcases List.mem_cons.mp hp with rfl | hp
        · exact hunder.tops_sublist.cons _
        · exact (ihunder hp).cons _
      · exact List.sublist_append_of_sublist_right (ihbehind hp)

/-- Parents come before their children, so that the paths make a hierarchy. -/
theorem hierarchy (h : PathOrder below tops xs)
    (hbelow : ∀ p, ∀ q ∈ below p, Dotted.parent q = p) (hdone : Hierarchy done)
    (htops : ∀ q ∈ tops, Dotted.parent q ∈ done) (hxs : (done ++ xs).Nodup) :
    Hierarchy (done ++ xs) := by
  induction h generalizing done with
  | nil => rwa [List.append_nil]
  | @cons p tops under behind _ _ ihunder ihbehind =>
      have hsplit : done ++ (p :: under ++ behind) = done ++ [p] ++ under ++ behind := by simp
      rw [hsplit] at hxs ⊢
      have hnew : p ∉ done := by
        have hnodup := hxs.of_append_left.of_append_left
        exact fun hmem => List.disjoint_of_nodup_append hnodup hmem (List.mem_singleton_self p)
      have htop := hdone.grow (htops p List.mem_cons_self) hnew
      have hsub := ihunder htop (fun q hq => by simp [hbelow p q hq]) hxs.of_append_left
      refine ihbehind hsub (fun q hq => ?_) hxs
      exact List.mem_append_left _ (List.mem_append_left _ (htops q (List.mem_cons_of_mem p hq)))

end PathOrder

/-! ## Growth without inner nodes -/

/-- A path adds nothing in front of a path that has it in its lineage. -/
theorem grownPaths_grownPaths (hp : p ∈ Dotted.lineage q) :
    grownPaths (grownPaths ps p) q = grownPaths ps q := by
  obtain ⟨rest, hrest⟩ := Dotted.lineage_prefix hp
  have hnodup := hrest.symm ▸ Dotted.lineage_nodup q
  have hfront : (Dotted.lineage p).filter (· ∉ grownPaths ps p) = [] := by
    rw [List.filter_eq_nil_iff]
    intro r hr
    by_cases hmem : r ∈ ps <;> simp [grownPaths, hr, hmem]
  have hback : rest.filter (· ∉ grownPaths ps p) = rest.filter (· ∉ ps) := by
    refine List.filter_congr fun r hr => ?_
    have hnot : r ∉ Dotted.lineage p := fun h => List.disjoint_of_nodup_append hnodup h hr
    simp [grownPaths, hnot]
  rw [grownPaths, ← hrest, List.filter_append, hfront, hback, List.nil_append, grownPaths,
    List.append_assoc, ← List.filter_append, hrest, grownPaths]

theorem pathsOf_eq_foldl (es : List (Text × Text)) :
    pathsOf es = (es.map Prod.fst).foldl grownPaths [[]] := by
  induction es using List.reverseRecOn with
  | nil => rfl
  | append_singleton es e ih =>
      rw [pathsOf_concat, List.map_append, List.foldl_append, ← ih]
      rfl

/-- A hierarchy grows back from its own paths. -/
theorem Hierarchy.foldl_grownPaths (h : Hierarchy ps) : ps.tail.foldl grownPaths [[]] = ps := by
  induction h with
  | root => rfl
  | @grow ps q h hpar hq ih =>
      have hne : ps ≠ [] := List.ne_nil_of_mem h.nil_mem
      have hlineage : (Dotted.lineage q).filter (· ∉ ps) = [q] := by
        rw [Dotted.lineage_eq (h.ne_nil_of_not_mem hq), List.filter_append, h.missing_lineage hpar]
        simp [hq]
      rw [List.tail_append_of_ne_nil hne, List.foldl_append, ih, List.foldl_cons, List.foldl_nil,
        grownPaths, hlineage]

/-- In a depth-first order, paths that have others below them can be left out. -/
theorem PathOrder.foldl_filter {below : Text → List Text} {tops xs : List Text} {P : Text → Bool}
    (h : PathOrder below tops xs) (hbelow : ∀ p ∈ xs, ∀ q ∈ below p, p ∈ Dotted.lineage q)
    (hinner : ∀ p ∈ xs, P p = false → below p ≠ []) (done : List Text) :
    (xs.filter P).foldl grownPaths done = xs.foldl grownPaths done := by
  induction h generalizing done with
  | nil => rfl
  | @cons p tops under behind hunder _ ihunder ihbehind =>
      have hunder' := ihunder (fun q hq => hbelow q (by simp [hq])) fun q hq =>
        hinner q (by simp [hq])
      have hbehind' := ihbehind (fun q hq => hbelow q (by simp [hq])) fun q hq =>
        hinner q (by simp [hq])
      rw [List.filter_append, List.foldl_append, List.foldl_append, hbehind', List.foldl_cons]
      congr 1
      cases hp : P p with
      | true => rw [List.filter_cons_of_pos hp, List.foldl_cons, hunder']
      | false =>
          rw [List.filter_cons_of_neg (by simp [hp]), hunder']
          -- The first child comes right behind its parent and calls for it.
          cases hchildren : below p with
          | nil => exact absurd hchildren (hinner p (by simp) hp)
          | cons c cs =>
              rw [hchildren] at hunder
              cases hunder with
              | cons _ _ =>
                  have hc : p ∈ Dotted.lineage c := hbelow p (by simp) c (by simp [hchildren])
                  simp only [List.cons_append, List.foldl_cons, grownPaths_grownPaths hc]

/-! ## The order of descendants -/

/-- A depth-first order of numbers is one of their paths. -/
theorem DepthFirst.pathOrder {ids xs : List Nat} {tops : List Text}
    (h : DepthFirst (build es) ids xs)
    (htops : ids.map (fun i => (pathsOf es)[i]?) = tops.map some) :
    ∃ ys, PathOrder (pathsBelow (pathsOf es)) tops ys ∧
      xs.map (fun i => (pathsOf es)[i]?) = ys.map some := by
  induction h generalizing tops with
  | nil =>
      obtain rfl := List.map_eq_nil_iff.mp htops.symm
      exact ⟨[], .nil, rfl⟩
  | @cons id ids _ _ _ _ ihbelow ihbehind =>
      obtain ⟨p, tops, rfl, hp, hrest⟩ := List.map_eq_cons_iff.mp htops.symm
      have hid : (pathsOf es)[id]? = some p := hp.symm
      rw [childrenOf_build, hid, Option.elim_some] at ihbelow
      obtain ⟨under, hunder, hxs⟩ := ihbelow (map_getElem?_childIds _ p)
      obtain ⟨behind, hbehind, hys⟩ := ihbehind hrest.symm
      exact ⟨p :: under ++ behind, .cons hunder hbehind, by simp [hid, hxs, hys]⟩

theorem pathOrder_descendants (es : List (Text × Text)) :
    PathOrder (pathsBelow (pathsOf es)) (pathsBelow (pathsOf es) [])
      ((build es).descendants.map Node.path) := by
  obtain ⟨h, -⟩ := build_eq_ofPaths es
  have hwell := wellFormed_build es
  have horder := hwell.depthFirst_descendantIds
  rw [childrenOf_build, root, h.getElem?_zero, Option.elim_some] at horder
  obtain ⟨xs, hxs, hids⟩ := horder.pathOrder (map_getElem?_childIds _ [])
  have hpaths : (build es).descendantIds.map (fun i => (pathsOf es)[i]?) =
      ((build es).descendants.map Node.path).map some := by
    have hnodes := congrArg (List.map (Option.map Node.path)) hwell.map_node?_descendantIds
    rw [List.map_map, List.map_map] at hnodes
    rw [List.map_map]
    refine Eq.trans (List.map_congr_left fun i _ => ?_) hnodes
    rw [Function.comp_apply, node?_build, Option.map_map]
    exact (Option.map_id_apply ..).symm
  have hmap : xs = (build es).descendants.map Node.path :=
    List.map_injective_iff.mpr (Option.some_injective _) (hids.symm.trans hpaths)
  rwa [hmap] at hxs

theorem perm_paths (es : List (Text × Text)) :
    ([] :: (build es).descendants.map Node.path).Perm (pathsOf es) := by
  obtain ⟨children, hroot⟩ := (wellFormed_build es).root_node
  have hperm := ((wellFormed_build es).nodes_perm hroot).map Node.path
  rwa [map_path_build] at hperm

theorem hierarchy_descendants (es : List (Text × Text)) :
    Hierarchy ([] :: (build es).descendants.map Node.path) := by
  obtain ⟨h, -⟩ := build_eq_ofPaths es
  have hroot : Hierarchy [[]] := .root
  refine (pathOrder_descendants es).hierarchy ?_ hroot ?_ ?_
  · exact fun p q hq => (mem_pathsBelow.mp hq).2.2
  · exact fun q hq => List.mem_singleton.mpr (mem_pathsBelow.mp hq).2.2
  · exact (perm_paths es).nodup_iff.mpr h.nodup

theorem descendants_build (es : List (Text × Text)) :
    (build es).descendants =
      ((build es).descendants.map Node.path).map (nodeOf (pathsOf es) (valueOf es)) := by
  rw [List.map_map]
  refine (List.map_id _).symm.trans (List.map_congr_left fun n hn => ?_)
  exact (mem_nodes_build.mp ((wellFormed_build es).mem_nodes_of_mem_descendants hn)).2

theorem entries_build (es : List (Text × Text)) :
    (build es).entries = ((build es).descendants.map Node.path).filterMap
      fun p => (valueOf es p).map fun v => (p, v) := by
  rw [entries_eq, List.filterMap_map]
  conv_lhs => rw [descendants_build, List.map_map, List.filterMap_map]
  rfl

theorem map_fst_entries_build (es : List (Text × Text)) :
    (build es).entries.map Prod.fst =
      ((build es).descendants.map Node.path).filter fun p => (valueOf es p).isSome := by
  rw [entries_build, List.map_filterMap, ← List.filterMap_eq_filter]
  apply List.filterMap_congr
  intro p _
  cases hv : valueOf es p <;> simp [Option.guard, hv]

/-- Depth first, every path keeps the paths right below it and their order. -/
theorem pathsBelow_descendants (es : List (Text × Text)) (p : Text) :
    pathsBelow ([] :: (build es).descendants.map Node.path) p = pathsBelow (pathsOf es) p := by
  obtain ⟨h, -⟩ := build_eq_ofPaths es
  have horder := pathOrder_descendants es
  have hperm := perm_paths es
  generalize (build es).descendants.map Node.path = xs at horder hperm
  have hsub : (pathsBelow (pathsOf es) p).Sublist ([] :: xs) := by
    by_cases hp : p ∈ pathsOf es
    · rcases List.mem_cons.mp (hperm.mem_iff.mpr hp) with rfl | hp
      · exact horder.tops_sublist.cons _
      · exact (horder.below_sublist hp).cons _
    · have hnone : pathsBelow (pathsOf es) p = [] := by
        rw [List.eq_nil_iff_forall_not_mem]
        intro q hmem
        obtain ⟨hq, -, rfl⟩ := mem_pathsBelow.mp hmem
        exact hp (h.parent_mem hq)
      rw [hnone]
      exact List.nil_sublist _
  have hfilter := hsub.filter fun q => q ≠ [] ∧ Dotted.parent q = p
  rw [pathsBelow, List.filter_filter] at hfilter
  simp only [Bool.and_self] at hfilter
  exact (hfilter.eq_of_length (hperm.filter _).length_eq.symm).symm

/-! ## Trees with the same children -/

section

variable (hbelow : ∀ p, pathsBelow (pathsOf es) p = pathsBelow (pathsOf fs) p)

include hbelow

theorem forall₂_childrenOf (hij : (pathsOf es)[i]? = (pathsOf fs)[j]?) :
    List.Forall₂ (fun i j => (pathsOf es)[i]? = (pathsOf fs)[j]?) ((build es).childrenOf i)
      ((build fs).childrenOf j) := by
  rw [childrenOf_build, childrenOf_build, ← hij]
  cases (pathsOf es)[i]? with
  | none => exact .nil
  | some p =>
      rw [Option.elim_some, Option.elim_some,
        ← List.forall₂_map_right_iff (f := fun j => (pathsOf fs)[j]?),
        ← List.forall₂_map_left_iff (f := fun i => (pathsOf es)[i]?), map_getElem?_childIds,
        map_getElem?_childIds, hbelow p, List.forall₂_eq_eq_eq]

/-- Nodes with the same path have the same view, whatever their numbers are. -/
theorem viewAt_build_congr (hvalues : valueOf es = valueOf fs)
    (hij : (pathsOf es)[i]? = (pathsOf fs)[j]?) (d : Nat) :
    (build es).viewAt d i = (build fs).viewAt d j := by
  induction d generalizing i j with
  | zero => rfl
  | succ d ih =>
      have hchildren := forall₂_childrenOf hbelow hij
      rw [childrenOf, childrenOf, node?_build, node?_build, ← hij] at hchildren
      rw [viewAt, viewAt, node?_build, node?_build, ← hij]
      cases hp : (pathsOf es)[i]? with
      | none => rfl
      | some p =>
          rw [hp] at hchildren
          have hviews := hchildren.imp fun i j hij => ih hij
          rw [← List.forall₂_map_right_iff, ← List.forall₂_map_left_iff,
            List.forall₂_eq_eq_eq] at hviews
          rw [← hvalues]
          exact congrArg (NodeView.mk (Dotted.lastSegment p) p (valueOf es p)) hviews

end

/-! ## Leaves of built trees -/

theorem mem_of_valueOf (h : valueOf es p = some v) : (p, v) ∈ es := by
  rw [valueOf] at h
  split at h
  · exact absurd h.symm (Option.some_ne_none v)
  · obtain ⟨⟨q, w⟩, hlast, rfl⟩ := Option.map_eq_some_iff.mp h
    obtain ⟨hmem, hq⟩ := List.mem_filter.mp (List.mem_of_getLast? hlast)
    obtain rfl : q = p := of_decide_eq_true hq
    exact hmem

theorem valueOf_entries_build (es : List (Text × Text)) :
    valueOf (build es).entries = valueOf es := by
  funext p
  refine Option.ext fun v => ⟨fun h => mem_entries_build.mp (mem_of_valueOf h), fun h => ?_⟩
  have hp := (isSome_valueOf_iff.mp (Option.isSome_of_eq_some h)).1
  have hmem : p ∈ (build es).entries.map Prod.fst :=
    List.mem_map.mpr ⟨(p, v), mem_entries_build.mpr h, rfl⟩
  obtain ⟨w, hw⟩ := Option.isSome_iff_exists.mp (isSome_valueOf_iff.mpr ⟨hp, hmem⟩)
  rw [hw, ← h]
  exact (mem_entries_build.mp (mem_of_valueOf hw)).symm

/-- A path without a value lies above a key. -/
theorem pathsBelow_ne_nil (hp : p ∈ pathsOf es) (hne : p ≠ []) (hv : valueOf es p = none) :
    pathsBelow (pathsOf es) p ≠ [] := by
  obtain rfl | ⟨e, he, hmem⟩ := mem_pathsOf.mp hp
  · exact absurd rfl hne
  have hpe : p ≠ e.1 := by
    rintro rfl
    have hsome := isSome_valueOf_iff.mpr ⟨hne, List.mem_map_of_mem he⟩
    rw [hv] at hsome
    exact Bool.noConfusion hsome
  obtain ⟨q, hq, hchild⟩ := Dotted.exists_child_of_mem_lineage hmem hpe
  exact List.ne_nil_of_mem (mem_pathsBelow.mpr ⟨mem_pathsOf.mpr (.inr ⟨e, he, hq⟩), hchild⟩)

/-- The leaves of a tree call for its nodes in depth-first order. -/
theorem pathsOf_entries_build (es : List (Text × Text)) :
    pathsOf (build es).entries = [] :: (build es).descendants.map Node.path := by
  have hnew := hierarchy_descendants es
  have hne : ∀ p ∈ (build es).descendants.map Node.path, p ≠ [] := by
    rintro p hp rfl
    exact (List.nodup_cons.mp hnew.nodup).1 hp
  rw [pathsOf_eq_foldl, map_fst_entries_build, (pathOrder_descendants es).foldl_filter]
  · exact hnew.foldl_grownPaths
  · intro p hp q hmem
    obtain ⟨-, hq, rfl⟩ := mem_pathsBelow.mp hmem
    rw [Dotted.lineage_eq hq]
    exact List.mem_append_left _ (Dotted.self_mem_lineage (hne _ hp))
  · intro p hp hv
    have hmem := (perm_paths es).mem_iff.mp (List.mem_cons_of_mem _ hp)
    exact pathsBelow_ne_nil hmem (hne p hp) (by simpa using hv)

/-! ## The tree of the leaves -/

theorem pathsBelow_pathsOf_entries (es : List (Text × Text)) (p : Text) :
    pathsBelow (pathsOf (build es).entries) p = pathsBelow (pathsOf es) p := by
  rw [pathsOf_entries_build, pathsBelow_descendants]

theorem view_build_entries (es : List (Text × Text)) :
    (build (build es).entries).view = (build es).view := by
  obtain ⟨h, -⟩ := build_eq_ofPaths es
  obtain ⟨h', -⟩ := build_eq_ofPaths (build es).entries
  have hsize : (build (build es).entries).size = (build es).size := by
    have hperm := perm_paths es
    rw [← pathsOf_entries_build, ← map_path_build, ← map_path_build] at hperm
    simpa [size] using hperm.length_eq
  have hroot : (pathsOf (build es).entries)[root]? = (pathsOf es)[root]? :=
    h'.getElem?_zero.trans h.getElem?_zero.symm
  rw [view, view, hsize]
  exact viewAt_build_congr (pathsBelow_pathsOf_entries es) (valueOf_entries_build es) hroot _

/-- The nodes of the new tree are the root and the descendants of the old one. -/
theorem nodes_build_entries (es : List (Text × Text)) :
    (build (build es).entries).nodes.map (fun n => (n.name, n.path, n.value)) =
      ([], [], none) :: (build es).descendants.map (fun n => (n.name, n.path, n.value)) := by
  obtain ⟨-, hbuild⟩ := build_eq_ofPaths (build es).entries
  have hroot : valueOf es [] = none := if_pos rfl
  rw [hbuild, valueOf_entries_build, ofPaths, pathsOf_entries_build]
  conv_rhs => rw [descendants_build, List.map_map]
  rw [List.map_cons, List.map_cons, List.map_map, nodeOf, hroot]
  rfl

theorem entries_build_entries (es : List (Text × Text)) :
    (build (build es).entries).entries = (build es).entries := by
  have horder := pathOrder_descendants (build es).entries
  rw [funext (pathsBelow_pathsOf_entries es)] at horder
  rw [entries_build, horder.unique (pathOrder_descendants es), valueOf_entries_build,
    ← entries_build]

/-- A tree that is built from the leaves of another has the same view, makes its nodes in the
depth-first order of the other, and is the tree that its own leaves build. -/
theorem build_leaves (es : List (Text × Text)) :
    let t := build es
    let t' := build t.entries
    t.leaves.map (fun n => (n.path, n.value)) = t.entries.map (fun e => (e.1, some e.2)) ∧
      t'.view = t.view ∧
      t'.nodes.map (fun n => (n.name, n.path, n.value)) =
        ([], [], none) :: t.descendants.map (fun n => (n.name, n.path, n.value)) ∧
      build t'.entries = t' := by
  intro t t'
  refine ⟨map_leaves t, view_build_entries es, nodes_build_entries es, ?_⟩
  exact congrArg build (entries_build_entries es)

end ResourceBundles.KeyTree
