import ResourceBundles.KeyTree.Basic
import ResourceBundles.Proofs.Lists
import ResourceBundles.Proofs.Text.Lineage

/-!
# Key trees from their paths

A key tree holds no more than the order in which its paths came and their values:
names, children and the index follow.  `ofPaths` makes the tree of given paths.
-/

namespace ResourceBundles.KeyTree

/-! ## Hierarchies -/

/-- Distinct paths, the empty path first and every other path behind its parent. -/
inductive Hierarchy : List Text → Prop
  | root : Hierarchy [[]]
  | grow {ps : List Text} {q : Text} (h : Hierarchy ps) (hp : Dotted.parent q ∈ ps)
      (hq : q ∉ ps) : Hierarchy (ps ++ [q])

namespace Hierarchy

variable {ps : List Text} {p q : Text} {i j : Nat}

theorem nil_mem (h : Hierarchy ps) : [] ∈ ps := by
  induction h with
  | root => exact List.mem_singleton_self []
  | grow _ _ _ ih => exact List.mem_append_left _ ih

theorem ne_nil_of_not_mem (h : Hierarchy ps) (hq : q ∉ ps) : q ≠ [] := by
  rintro rfl
  exact hq h.nil_mem

theorem getElem?_zero (h : Hierarchy ps) : ps[0]? = some [] := by
  induction h with
  | root => rfl
  | grow _ _ _ ih =>
      obtain ⟨hlt, -⟩ := List.getElem?_eq_some_iff.mp ih
      rw [List.getElem?_append_left hlt, ih]

theorem nodup (h : Hierarchy ps) : ps.Nodup := by
  induction h with
  | root => exact List.nodup_singleton []
  | grow _ _ hq ih =>
      rw [List.nodup_append]
      refine ⟨ih, List.nodup_singleton _, ?_⟩
      rintro a ha b hb rfl
      exact hq (List.mem_singleton.mp hb ▸ ha)

theorem parent_mem (h : Hierarchy ps) (hp : p ∈ ps) : Dotted.parent p ∈ ps := by
  induction h with
  | root =>
      rw [List.mem_singleton.mp hp]
      exact List.mem_singleton_self []
  | grow _ hpar _ ih =>
      rcases List.mem_append.mp hp with hp | hp
      · exact List.mem_append_left _ (ih hp)
      · rw [List.mem_singleton.mp hp]
        exact List.mem_append_left _ hpar

theorem parent_lt (h : Hierarchy ps) (hq : ps[j]? = some q) (hne : q ≠ [])
    (hi : ps[i]? = some (Dotted.parent q)) : i < j := by
  induction h with
  | root =>
      obtain ⟨rfl, rfl⟩ : j = 0 ∧ [] = q := by simpa [List.getElem?_singleton] using hq
      exact absurd rfl hne
  | @grow ps r h hpar hr ih =>
      have hlen : ∀ {k : Nat} {s : Text}, (ps ++ [r])[k]? = some s → s ∈ ps → k < ps.length := by
        intro k s hk hs
        refine Decidable.byContradiction fun hn => hr ?_
        rw [List.getElem?_append_right (Nat.le_of_not_lt hn), List.getElem?_singleton] at hk
        obtain ⟨-, rfl⟩ : _ ∧ r = s := by simpa using hk
        exact hs
      by_cases hj : j < ps.length
      · rw [List.getElem?_append_left hj] at hq
        have hil := hlen hi (h.parent_mem (List.mem_of_getElem? hq))
        rw [List.getElem?_append_left hil] at hi
        exact ih hq hi
      · rw [List.getElem?_append_right (Nat.le_of_not_lt hj), List.getElem?_singleton] at hq
        obtain ⟨-, rfl⟩ : _ ∧ r = q := by simpa using hq
        exact Nat.lt_of_lt_of_le (hlen hi hpar) (Nat.le_of_not_lt hj)

theorem lineage_subset (h : Hierarchy ps) (hp : p ∈ ps) : Dotted.lineage p ⊆ ps := by
  induction p using Dotted.parent_induction with
  | nil => simp
  | child p hne ih =>
      rw [Dotted.lineage_eq hne]
      exact List.append_subset.mpr ⟨ih (h.parent_mem hp), by simpa using hp⟩

theorem missing_lineage (h : Hierarchy ps) (hp : p ∈ ps) :
    (Dotted.lineage p).filter (· ∉ ps) = [] := by
  rw [List.filter_eq_nil_iff]
  intro q hq
  simpa using h.lineage_subset hp hq

end Hierarchy

/-! ## The tree of some paths -/

def childIds (ps : List Text) (parent : Text) : List Nat :=
  (ps.zipIdx.filter fun (q, _) => q ≠ [] ∧ Dotted.parent q = parent).map Prod.snd

def nodeOf (ps : List Text) (values : Text → Option Text) (p : Text) : Node :=
  ⟨Dotted.lastSegment p, p, values p, childIds ps p⟩

/-- The tree whose nodes have the given paths, in this order, and the given values. -/
def ofPaths (ps : List Text) (values : Text → Option Text) : KeyTree where
  nodes := ps.map (nodeOf ps values)
  index := ps.zipIdx

variable {ps : List Text} {values : Text → Option Text} {p q : Text} {i : Nat}

theorem mem_childIds : i ∈ childIds ps p ↔ ∃ q, ps[i]? = some q ∧ q ≠ [] ∧ Dotted.parent q = p := by
  simp [childIds, List.mk_mem_zipIdx_iff_getElem?]

/-- The paths right below a path, in their order. -/
def pathsBelow (ps : List Text) (p : Text) : List Text :=
  ps.filter fun q => q ≠ [] ∧ Dotted.parent q = p

theorem mem_pathsBelow : q ∈ pathsBelow ps p ↔ q ∈ ps ∧ q ≠ [] ∧ Dotted.parent q = p := by
  rw [pathsBelow, List.mem_filter, decide_eq_true_iff]

theorem map_getElem?_childIds (ps : List Text) (p : Text) :
    (childIds ps p).map (fun i => ps[i]?) = (pathsBelow ps p).map some := by
  have hpaths : pathsBelow ps p =
      (ps.zipIdx.filter fun e => e.1 ≠ [] ∧ Dotted.parent e.1 = p).map Prod.fst := by
    conv_lhs => rw [pathsBelow, ← List.zipIdx_map_fst 0 ps, List.filter_map]
    rfl
  rw [hpaths, childIds, List.map_map, List.map_map]
  apply List.map_congr_left
  rintro ⟨q, i⟩ hq
  exact List.mk_mem_zipIdx_iff_getElem?.mp (List.mem_of_mem_filter hq)

theorem childIds_append (ps : List Text) (q p : Text) :
    childIds (ps ++ [q]) p =
      childIds ps p ++ if q ≠ [] ∧ Dotted.parent q = p then [ps.length] else [] := by
  by_cases h : q ≠ [] ∧ Dotted.parent q = p <;> simp [childIds, List.zipIdx_append, h]

theorem ofPaths_congr {values' : Text → Option Text} (h : ∀ p ∈ ps, values p = values' p) :
    ofPaths ps values = ofPaths ps values' := by
  simp only [ofPaths, KeyTree.mk.injEq, and_true, List.map_inj_left]
  intro p hp
  rw [nodeOf, nodeOf, h p hp]

theorem childIds_eq_nil (h : Hierarchy ps) (hp : p ∉ ps) : childIds ps p = [] := by
  rw [List.eq_nil_iff_forall_not_mem]
  intro j hj
  obtain ⟨q, hq, -, rfl⟩ := mem_childIds.mp hj
  exact hp (h.parent_mem (List.mem_of_getElem? hq))

@[simp] theorem size_ofPaths : (ofPaths ps values).size = ps.length := List.length_map ..

theorem find?_ofPaths (values : Text → Option Text) (h : Hierarchy ps) :
    (ofPaths ps values).find? p = some i ↔ ps[i]? = some p := by
  simp [find?, ofPaths, Lists.lookup_zipIdx h.nodup]

theorem find?_ofPaths_eq_none (values : Text → Option Text) (h : Hierarchy ps) :
    (ofPaths ps values).find? p = none ↔ p ∉ ps := by
  rw [Option.eq_none_iff_forall_ne_some]
  simp only [ne_eq, find?_ofPaths values h]
  rw [← not_exists, ← List.mem_iff_getElem?]

theorem node?_ofPaths : (ofPaths ps values).node? i = ps[i]?.map (nodeOf ps values) :=
  List.getElem?_map ..

end ResourceBundles.KeyTree
