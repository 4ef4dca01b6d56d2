import ResourceBundles.Proofs.KeyTree.DepthFirst
import Mathlib.Logic.Function.Iterate
import Mathlib.Logic.Relation

/-!
# The walk with a stack

A walk takes the top off its stack, visits it, and puts its children on the stack.  What
is still to be visited is the depth-first order of the stack, whose first member is visited
in the next step, and so the walk ends after one step for every node below the root.  In
what it has visited then, a node comes just before the nodes of its subtree.
-/

namespace ResourceBundles.KeyTree

variable {t : KeyTree} {ids ids' xs ys : List Nat} {i j : Nat}

/-! ## Steps of the walk -/

/-- A walk under way: the nodes that are visited, in order, and the stack, the top first. -/
structure Walk where
  visited : List Nat
  stack : List Nat

namespace Walk

def start (t : KeyTree) : Walk := ⟨[], t.childrenOf root⟩

def step (t : KeyTree) : Walk → Walk
  | ⟨visited, []⟩ => ⟨visited, []⟩
  | ⟨visited, id :: stack⟩ => ⟨visited ++ [id], t.childrenOf id ++ stack⟩

end Walk

namespace DepthFirst

theorem append (hx : DepthFirst t ids xs) (hy : DepthFirst t ids' ys) :
    DepthFirst t (ids ++ ids') (xs ++ ys) := by
  induction hx with
  | nil => exact hy
  | cons hbelow _ _ ihbehind =>
      rw [List.append_assoc]
      exact .cons hbelow ihbehind

theorem eq_nil_iff (h : DepthFirst t ids xs) : ids = [] ↔ xs = [] := by
  cases h <;> simp

/-- One step visits the next node, and the order of the new stack is what is left. -/
theorem step {w : Walk} (h : DepthFirst t w.stack (i :: xs)) :
    (Walk.step t w).visited = w.visited ++ [i] ∧ DepthFirst t (Walk.step t w).stack xs := by
  obtain ⟨visited, stack⟩ := w
  cases h with
  | cons hbelow hbehind => exact ⟨rfl, hbelow.append hbehind⟩

theorem iterate {w : Walk} (h : DepthFirst t w.stack (xs ++ ys)) :
    ((Walk.step t)^[xs.length] w).visited = w.visited ++ xs ∧
      DepthFirst t ((Walk.step t)^[xs.length] w).stack ys := by
  induction xs generalizing w with
  | nil => exact ⟨(List.append_nil _).symm, h⟩
  | cons i xs ih =>
      obtain ⟨hvisited, hrest⟩ := h.step
      have hlast := ih hrest
      rw [hvisited, List.append_assoc, List.singleton_append] at hlast
      exact hlast

/-- The walk has something to visit until it has visited everything. -/
theorem stack_iterate_ne_nil {w : Walk} {n : Nat} (h : DepthFirst t w.stack xs)
    (hn : n < xs.length) : ((Walk.step t)^[n] w).stack ≠ [] := by
  have hxs : xs.take n ++ xs.drop n = xs := List.take_append_drop n xs
  rw [← hxs] at h
  obtain ⟨-, hrest⟩ := h.iterate
  rw [List.length_take_of_le (Nat.le_of_lt hn)] at hrest
  rw [Ne, hrest.eq_nil_iff, List.drop_eq_nil_iff]
  exact Nat.not_le.mpr hn

theorem iterate_of_length_le {w : Walk} {n : Nat} (h : DepthFirst t w.stack xs)
    (hn : xs.length ≤ n) : (Walk.step t)^[n] w = ⟨w.visited ++ xs, []⟩ := by
  obtain ⟨k, rfl⟩ := Nat.exists_eq_add_of_le' hn
  rw [← List.append_nil xs] at h
  obtain ⟨hvisited, hrest⟩ := h.iterate
  have hend : (Walk.step t)^[xs.length] w = ⟨w.visited ++ xs, []⟩ := by
    rw [← hvisited, ← hrest.eq_nil_iff.mpr rfl]
  rw [Function.iterate_add_apply, hend]
  exact Function.iterate_fixed rfl k

/-! ## Subtrees -/

/-- A node is followed by its subtree. -/
theorem exists_subtree (h : DepthFirst t ids xs) (hi : i ∈ xs) :
    ∃ front below behind, xs = front ++ i :: below ++ behind ∧
      DepthFirst t (t.childrenOf i) below := by
  induction h with
  | nil => exact absurd hi List.not_mem_nil
  | @cons id ids below behind hbelow hbehind ihbelow ihbehind =>
      rcases List.mem_append.mp hi with hi | hi
      · rcases List.mem_cons.mp hi with rfl | hi
        · exact ⟨[], below, behind, rfl, hbelow⟩
        · obtain ⟨front, inner, back, rfl, hinner⟩ := ihbelow hi
          exact ⟨id :: front, inner, back ++ behind, by simp, hinner⟩
      · obtain ⟨front, inner, back, rfl, hinner⟩ := ihbehind hi
        exact ⟨id :: below ++ front, inner, back, by simp, hinner⟩

theorem mem_iff (h : DepthFirst t ids xs) :
    j ∈ xs ↔ ∃ i ∈ ids, Relation.ReflTransGen (fun i j => j ∈ t.childrenOf i) i j := by
  induction h with
  | nil => simp
  | @cons id ids below behind _ _ ihbelow ihbehind =>
      rw [List.cons_append, List.mem_cons, List.mem_append, ihbelow, ihbehind,
        List.exists_mem_cons_iff, Relation.ReflTransGen.cases_head_iff, ← or_assoc, eq_comm]

/-- The subtree of a node has all nodes that its children lead down to. -/
theorem mem_childrenOf_iff (h : DepthFirst t (t.childrenOf i) xs) :
    j ∈ xs ↔ Relation.TransGen (fun i j => j ∈ t.childrenOf i) i j := by
  rw [h.mem_iff, Relation.TransGen.head'_iff]

end DepthFirst

namespace WellFormed

theorem length_descendantIds (h : t.WellFormed) : t.descendantIds.length = t.size - 1 := by
  have hperm := (h.perm_range h.depthFirst_descendantIds).length_eq
  rw [List.length_cons, List.length_range] at hperm
  omega

theorem mem_descendantIds (h : t.WellFormed) :
    i ∈ t.descendantIds ↔ i ≠ root ∧ i < t.size := by
  rw [← List.count_pos_iff, h.count_eq h.depthFirst_descendantIds]
  split_ifs with hi <;> simp [hi]

/-- Every number of the walk is that of a node. -/
theorem map_node?_descendantIds (h : t.WellFormed) :
    t.descendantIds.map t.node? = t.descendants.map some := by
  rw [descendants, List.map_filterMap, ← List.filterMap_eq_map]
  apply List.filterMap_congr
  intro i hi
  have hlt : i < t.nodes.length := (h.mem_descendantIds.mp hi).2
  rw [Function.comp_apply, node?, List.getElem?_eq_getElem hlt]
  rfl

theorem parent_before_child (h : t.WellFormed) (hi : i ≠ root) (hj : j ∈ t.childrenOf i) :
    [i, j].Sublist t.descendantIds := by
  have hmem : i ∈ t.descendantIds :=
    h.mem_descendantIds.mpr ⟨hi, lt_size_of_childrenOf_ne_nil (List.ne_nil_of_mem hj)⟩
  obtain ⟨front, below, behind, hids, hbelow⟩ := h.depthFirst_descendantIds.exists_subtree hmem
  have hbehind : j ∈ below := hbelow.mem_childrenOf_iff.mpr (.single hj)
  have hpair : [i, j].Sublist (i :: below) := (List.singleton_sublist.mpr hbehind).cons_cons i
  rw [hids, List.append_assoc]
  apply List.sublist_append_of_sublist_right
  exact List.sublist_append_of_sublist_left hpair

end WellFormed

/-! ## Leaves -/

theorem map_leaves (t : KeyTree) :
    t.leaves.map (fun n => (n.path, n.value)) = t.entries.map fun e => (e.1, some e.2) := by
  rw [leaves, entries, List.map_filterMap, ← List.filterMap_eq_filter, List.map_filterMap]
  apply List.filterMap_congr
  intro n _
  cases hv : n.value <;> simp [Option.guard, hv]

theorem map_path_leaves (t : KeyTree) : t.leaves.map Node.path = t.entries.map Prod.fst := by
  have hleaves := congrArg (List.map Prod.fst) (map_leaves t)
  rwa [List.map_map, List.map_map] at hleaves

theorem mem_path_leaves_build {es : List (Text × Text)} {p : Text} :
    p ∈ (build es).leaves.map Node.path ↔ p ≠ [] ∧ p ∈ es.map Prod.fst := by
  rw [map_path_leaves, ← isSome_valueOf_iff, Option.isSome_iff_exists, List.mem_map]
  simp only [← mem_entries_build]
  constructor
  · rintro ⟨⟨p, v⟩, hmem, rfl⟩
    exact ⟨v, hmem⟩
  · rintro ⟨v, hmem⟩
    exact ⟨(p, v), hmem, rfl⟩

/-- The walk through a built tree ends after one step for every node below the root.  It
has then visited these nodes in depth-first order, each of them once, before its children
and together with its subtree, and the leaves among them are the keys. -/
theorem walk_build (es : List (Text × Text)) :
    let t := build es
    (∀ n, t.size - 1 ≤ n → (Walk.step t)^[n] (.start t) = ⟨t.descendantIds, []⟩) ∧
      (∀ n, n < t.size - 1 → ((Walk.step t)^[n] (.start t)).stack ≠ []) ∧
      (∀ ids, DepthFirst t (t.childrenOf root) ids ↔ ids = t.descendantIds) ∧
      (root :: t.descendantIds).Perm (List.range t.size) ∧
      t.descendantIds.map t.node? = t.descendants.map some ∧
      t.descendants.length = t.size - 1 ∧
      (∀ i j, i ≠ root → j ∈ t.childrenOf i → [i, j].Sublist t.descendantIds) ∧
      (∀ i ∈ t.descendantIds, ∃ front below behind,
        t.descendantIds = front ++ i :: below ++ behind ∧
          DepthFirst t (t.childrenOf i) below ∧
          ∀ j, j ∈ below ↔ Relation.TransGen (fun i j => j ∈ t.childrenOf i) i j) ∧
      t.leaves.Sublist t.descendants ∧ (t.leaves.map Node.path).Nodup ∧
      ∀ p, p ∈ t.leaves.map Node.path ↔ p ≠ [] ∧ p ∈ es.map Prod.fst := by
  intro t
  have h : t.WellFormed := wellFormed_build es
  have horder := h.depthFirst_descendantIds
  have hlength := h.length_descendantIds
  have hnodes := h.map_node?_descendantIds
  refine ⟨?_, ?_, ?_, h.perm_range horder, hnodes, ?_, ?_, ?_, List.filter_sublist, ?_,
    fun p => mem_path_leaves_build⟩
  · intro n hn
    apply DepthFirst.iterate_of_length_le (w := .start t) horder
    rwa [hlength]
  · intro n hn
    apply DepthFirst.stack_iterate_ne_nil (w := .start t) horder
    rwa [hlength]
  · intro ids
    constructor
    · exact fun hids => hids.unique horder
    · rintro rfl
      exact horder
  · rw [← hlength, ← List.length_map (f := t.node?), hnodes, List.length_map]
  · exact fun i j hi hj => h.parent_before_child hi hj
  · intro i hi
    obtain ⟨front, below, behind, hids, hbelow⟩ := horder.exists_subtree hi
    exact ⟨front, below, behind, hids, hbelow, fun j => hbelow.mem_childrenOf_iff⟩
  · rw [map_path_leaves]
    exact nodup_entries_build es

end ResourceBundles.KeyTree
