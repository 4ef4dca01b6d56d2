import ResourceBundles.KeyTree.View
import ResourceBundles.Proofs.Json.Writing
import ResourceBundles.Proofs.KeyTree.Names

/-!
# Trees and their views

A view keeps the names, paths and values of a tree and the order of children, and it leaves
out in which order the nodes were made.  Trees are the same if their views are the same and
their nodes have the same numbers; the view alone is told by the JSON text of the tree.
-/

namespace ResourceBundles

namespace NodeView

mutual

theorem eq_of_toJson_eq : ∀ {v w : NodeView}, v.toJson = w.toJson → v = w
  | .mk _ _ value _, .mk _ _ value' _, h => by
      simp only [toJson, Json.object.injEq, List.cons.injEq, Prod.mk.injEq, Json.string.injEq,
        Json.array.injEq, true_and, and_true] at h
      obtain ⟨rfl, rfl, -, hvalue, hchildren⟩ := h
      obtain rfl : value = value' := by cases value <;> cases value' <;> simp_all
      rw [eq_of_toJsons_eq hchildren]

theorem eq_of_toJsons_eq : ∀ {vs ws : List NodeView}, toJsons vs = toJsons ws → vs = ws
  | [], [], _ => rfl
  | [], _ :: _, h => by simp [toJsons] at h
  | _ :: _, [], h => by simp [toJsons] at h
  | _ :: _, _ :: _, h => by
      rw [toJsons, toJsons, List.cons.injEq] at h
      rw [eq_of_toJson_eq h.1, eq_of_toJsons_eq h.2]

end

end NodeView

namespace KeyTree

variable {t : KeyTree} {ps : List Text}
  {values values' : Text → Option Text} {n : Node} {p : Text} {i d d' : Nat}

/-! ## Depth of views -/

theorem viewAt_of_size_le (h : t.size ≤ i) (d : Nat) : t.viewAt d i = .mk [] [] none [] := by
  have hnone : t.node? i = none := List.getElem?_eq_none h
  cases d with
  | zero => rfl
  | succ d => rw [viewAt, hnone]

namespace WellFormed

/-- Children have larger numbers, so that a view ends before the depth that is left is used
up. -/
theorem viewAt_congr (h : t.WellFormed) (hd : t.size ≤ i + d) (hd' : t.size ≤ i + d') :
    t.viewAt d i = t.viewAt d' i := by
  induction d generalizing i d' with
  | zero => rw [viewAt_of_size_le (i := i) hd, viewAt_of_size_le (i := i) hd]
  | succ d ih =>
      cases d' with
      | zero => rw [viewAt_of_size_le (i := i) hd', viewAt_of_size_le (i := i) hd']
      | succ d' =>
          rw [viewAt, viewAt]
          cases hn : t.node? i with
          | none => rfl
          | some n =>
              simp only [NodeView.mk.injEq, true_and, List.map_inj_left]
              intro j hj
              have hchild : j ∈ t.childrenOf i := by rwa [childrenOf_eq hn]
              have hlt := (h.child_lt i j hchild).1
              exact ih (by omega) (by omega)

theorem viewAt_size (h : t.WellFormed) (hn : t.node? i = some n) :
    t.viewAt t.size i = .mk n.name n.path n.value (n.children.map (t.viewAt t.size)) := by
  have hsucc : t.viewAt t.size i = t.viewAt (t.size + 1) i :=
    h.viewAt_congr (Nat.le_add_left ..) (by omega)
  rw [hsucc, viewAt, hn]

end WellFormed

/-! ## Trees with one order of nodes -/

theorem viewAt_ofPaths (h : Hierarchy ps) (hnil : values [] = none) (hi : ps[i]? = some p) :
    (ofPaths ps values).viewAt ps.length i =
      .mk (Dotted.lastSegment p) p (values p)
        ((childIds ps p).map ((ofPaths ps values).viewAt ps.length)) := by
  have hnode : (ofPaths ps values).node? i = some (nodeOf ps values p) := by
    rw [node?_ofPaths, hi, Option.map_some]
  have hview := (wellFormed_ofPaths h hnil).viewAt_size hnode
  rwa [size_ofPaths] at hview

section

variable (h : Hierarchy ps) (hnil : values [] = none) (hnil' : values' [] = none)
  (hview : (ofPaths ps values).view = (ofPaths ps values').view)

include h hnil hnil' hview

/-- By induction from parents to children, the view is the same at every node. -/
theorem viewAt_eq_of_view_eq (hi : ps[i]? = some p) :
    (ofPaths ps values).viewAt ps.length i = (ofPaths ps values').viewAt ps.length i := by
  induction p using Dotted.parent_induction generalizing i with
  | nil =>
      obtain rfl : i = root := Lists.place_unique h.nodup hi h.getElem?_zero
      rwa [view, view, size_ofPaths, size_ofPaths] at hview
  | child p hne ih =>
      obtain ⟨j, hj⟩ := List.mem_iff_getElem?.mp (h.parent_mem (List.mem_of_getElem? hi))
      have hparent := ih hj
      rw [viewAt_ofPaths h hnil hj, viewAt_ofPaths h hnil' hj, NodeView.mk.injEq] at hparent
      exact List.map_inj_left.mp hparent.2.2.2 i (mem_childIds.mpr ⟨p, hi, hne, rfl⟩)

theorem values_eq_of_view_eq (hp : p ∈ ps) : values p = values' p := by
  obtain ⟨i, hi⟩ := List.mem_iff_getElem?.mp hp
  have hsame := viewAt_eq_of_view_eq h hnil hnil' hview hi
  rw [viewAt_ofPaths h hnil hi, viewAt_ofPaths h hnil' hi, NodeView.mk.injEq] at hsame
  exact hsame.2.2.1

end

theorem map_path_build (es : List (Text × Text)) :
    (build es).nodes.map Node.path = pathsOf es := by
  obtain ⟨-, hbuild⟩ := build_eq_ofPaths es
  rw [hbuild, ofPaths, List.map_map]
  exact List.map_id _

/-! ## Trees with one view -/

theorem toJson_eq_iff {t u : KeyTree} : t.toJson = u.toJson ↔ t.view = u.view :=
  ⟨NodeView.eq_of_toJson_eq, congrArg NodeView.toJson⟩

theorem render_toJson_eq_iff {t u : KeyTree} :
    t.toJson.render = u.toJson.render ↔ t.view = u.view :=
  Json.render_injective.eq_iff.trans toJson_eq_iff

/-- Trees are the same exactly if they have the same view and number their nodes alike, and
they have the same view exactly if they are the same JSON, as values and as texts. -/
theorem build_eq_iff (es fs : List (Text × Text)) :
    (build es = build fs ↔ (build es).view = (build fs).view ∧
        (build es).nodes.map Node.path = (build fs).nodes.map Node.path) ∧
      ((build es).view = (build fs).view ↔ (build es).toJson = (build fs).toJson) ∧
      ((build es).view = (build fs).view ↔
        (build es).toJson.render = (build fs).toJson.render) := by
  refine ⟨⟨?_, ?_⟩, toJson_eq_iff.symm, render_toJson_eq_iff.symm⟩
  · intro h
    rw [h]
    exact ⟨rfl, rfl⟩
  · rintro ⟨hview, hpaths⟩
    obtain ⟨hps, hes⟩ := build_eq_ofPaths es
    obtain ⟨-, hfs⟩ := build_eq_ofPaths fs
    rw [map_path_build, map_path_build] at hpaths
    have hnil : ∀ gs, valueOf gs [] = none := fun gs => if_pos rfl
    rw [hes, hfs, ← hpaths] at hview ⊢
    exact ofPaths_congr fun p hp => values_eq_of_view_eq hps (hnil es) (hnil fs) hview hp

/-- A view does not tell whether a node was made between the children of another one. -/
theorem view_forgets_numbers :
    (build [("a.x", "1"), ("b", "2"), ("a.y", "3")]).view =
        (build [("a.x", "1"), ("a.y", "3"), ("b", "2")]).view ∧
      build [("a.x", "1"), ("b", "2"), ("a.y", "3")] ≠
        build [("a.x", "1"), ("a.y", "3"), ("b", "2")] :=
  ⟨render_toJson_eq_iff.mp (by decide +kernel), by decide +kernel⟩

end KeyTree
end ResourceBundles
