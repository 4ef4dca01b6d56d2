import ResourceBundles.Proofs.KeyTree.Shape

/-!
# Depth-first order

The walk with a stack visits the subtrees of a tree one after the other, each from
its top down.  In a well-formed tree it comes to every node but the root, and to
none of them twice.
-/

namespace ResourceBundles

/-- The key and the value of a node that has a value. -/
def Node.entry? (n : Node) : Option (Text × Text) := n.value.map fun v => (n.path, v)

namespace KeyTree

/-- The numbers in the subtrees of some tops: the first top, then the subtrees of
its children, then the subtrees of the other tops. -/
inductive DepthFirst (t : KeyTree) : List Nat → List Nat → Prop
  | nil : DepthFirst t [] []
  | cons {id : Nat} {ids below behind : List Nat} (hbelow : DepthFirst t (t.childrenOf id) below)
      (hbehind : DepthFirst t ids behind) : DepthFirst t (id :: ids) (id :: below ++ behind)

variable {t : KeyTree} {ids xs ys : List Nat} {i : Nat}

namespace DepthFirst

/-- A tree has one depth-first order. -/
theorem unique (hx : DepthFirst t ids xs) (hy : DepthFirst t ids ys) : xs = ys := by
  induction hx generalizing ys with
  | nil =>
      cases hy
      rfl
  | cons _ _ ihbelow ihbehind =>
      cases hy with
      | cons hbelow hbehind => rw [ihbelow hbelow, ihbehind hbehind]

theorem exists_of_forall (h : ∀ id ∈ ids, ∃ xs, DepthFirst t (t.childrenOf id) xs) :
    ∃ xs, DepthFirst t ids xs := by
  induction ids with
  | nil => exact ⟨[], nil⟩
  | cons id ids ih =>
      obtain ⟨below, hbelow⟩ := h id List.mem_cons_self
      obtain ⟨behind, hbehind⟩ := ih fun j hj => h j (List.mem_cons_of_mem id hj)
      exact ⟨id :: below ++ behind, cons hbelow hbehind⟩

/-- With enough fuel the walk takes the tops off its stack in depth-first order. -/
theorem preorder_append (h : DepthFirst t ids xs) {fuel : Nat} (hfuel : xs.length ≤ fuel)
    (stack : List Nat) :
    t.preorder fuel (ids ++ stack) = xs ++ t.preorder (fuel - xs.length) stack := by
  induction h generalizing fuel stack with
  | nil => rfl
  | @cons id ids below behind _ _ ihbelow ihbehind =>
      obtain ⟨rest, rfl⟩ : ∃ rest, fuel = rest + (below.length + behind.length) + 1 := by
        refine ⟨fuel - (below.length + behind.length) - 1, ?_⟩
        simp only [List.cons_append, List.length_cons, List.length_append] at hfuel
        omega
      have hrest : rest + (below.length + behind.length) - below.length = rest + behind.length := by
        omega
      rw [List.cons_append, preorder, ihbelow (by omega), hrest, ihbehind (by omega)]
      simp only [List.cons_append, List.length_cons, List.length_append, List.append_assoc]
      congr 4
      omega

/-- What is visited is the tops and the children of what is visited. -/
theorem perm (h : DepthFirst t ids xs) : xs.Perm (ids ++ xs.flatMap t.childrenOf) := by
  induction h with
  | nil => exact .refl []
  | @cons id ids below behind _ _ ihbelow ihbehind =>
      rw [List.cons_append, List.cons_append, List.flatMap_cons, List.flatMap_append]
      refine .cons id ((ihbelow.append ihbehind).trans ?_)
      rw [List.perm_iff_count]
      intro i
      simp only [List.count_append]
      omega

end DepthFirst

/-! ## The walk through a well-formed tree -/

theorem lt_size_of_childrenOf_ne_nil (hne : t.childrenOf i ≠ []) : i < t.size := by
  refine Decidable.byContradiction fun hlt => hne ?_
  rw [childrenOf, node?, List.getElem?_eq_none (Nat.le_of_not_lt hlt)]
  rfl

theorem count_flatMap_childrenOf {j : Nat} (hcount : (t.childrenOf j).count i = 1)
    (hother : ∀ k, k ≠ j → i ∉ t.childrenOf k) :
    (xs.flatMap t.childrenOf).count i = xs.count j := by
  induction xs with
  | nil => rfl
  | cons k xs ih =>
      rw [List.flatMap_cons, List.count_append, ih, List.count_cons]
      by_cases hk : k = j
      · simp [hk, hcount, Nat.add_comm]
      · simp [hk, List.count_eq_zero.mpr (hother k hk)]

namespace WellFormed

theorem exists_depthFirst_childrenOf (h : t.WellFormed) (i : Nat) :
    ∃ xs, DepthFirst t (t.childrenOf i) xs := by
  obtain ⟨n, hn⟩ : ∃ n, t.size ≤ i + n := ⟨t.size, Nat.le_add_left ..⟩
  induction n generalizing i with
  | zero =>
      have hnil : t.childrenOf i = [] :=
        Decidable.byContradiction fun hne =>
          Nat.not_lt.mpr hn (lt_size_of_childrenOf_ne_nil hne)
      rw [hnil]
      exact ⟨[], .nil⟩
  | succ n ih =>
      apply DepthFirst.exists_of_forall
      intro j hj
      -- Children have larger numbers, so that every branch ends at the last one.
      have hlt := (h.child_lt i j hj).1
      apply ih j
      omega

theorem exists_parent (h : t.WellFormed) (hi : i ≠ root) (hlt : i < t.size) :
    ∃ j < i, (t.childrenOf j).count i = 1 ∧ ∀ k, k ≠ j → i ∉ t.childrenOf k := by
  have hn : t.node? i = some t.nodes[i] := List.getElem?_eq_getElem hlt
  obtain ⟨j, m, hm, -, hcount, hother⟩ := h.parent i _ hi hn
  have hchildren : t.childrenOf j = m.children := childrenOf_eq hm
  have hmem : i ∈ t.childrenOf j := by
    rw [← List.count_pos_iff, hchildren, hcount]
    exact Nat.one_pos
  exact ⟨j, (h.child_lt j i hmem).1, hchildren ▸ hcount, hother⟩

/-- By induction from parents to children, a walk from the children of the root comes
to every node but the root once. -/
theorem count_eq (h : t.WellFormed) (hxs : DepthFirst t (t.childrenOf root) xs) (i : Nat) :
    xs.count i = if i ≠ root ∧ i < t.size then 1 else 0 := by
  induction i using Nat.strongRecOn with
  | ind i ih =>
      have hcount := List.perm_iff_count.mp hxs.perm i
      rw [List.count_append] at hcount
      by_cases hi : i ≠ root ∧ i < t.size
      · -- The node is met as often as its parent, and once more if that is the root.
        obtain ⟨j, hji, hone, hother⟩ := h.exists_parent hi.1 hi.2
        rw [count_flatMap_childrenOf hone hother, ih j hji] at hcount
        rw [if_pos hi, hcount]
        by_cases hj : j = root
        · simp [← hj, hone]
        · have hnot := List.count_eq_zero.mpr (hother root (Ne.symm hj))
          simp [hj, hnot, Nat.lt_trans hji hi.2]
      · have hnot : ∀ k, i ∉ t.childrenOf k := by
          intro k hk
          have hlt := h.child_lt k i hk
          exact hi ⟨Nat.ne_of_gt (Nat.zero_lt_of_lt hlt.1), hlt.2⟩
        rw [if_neg hi, hcount, List.count_eq_zero.mpr (hnot root), Nat.zero_add,
          List.count_eq_zero]
        simp [hnot]

theorem perm_range (h : t.WellFormed) (hxs : DepthFirst t (t.childrenOf root) xs) :
    (root :: xs).Perm (List.range t.size) := by
  rw [List.perm_iff_count]
  intro i
  obtain ⟨children, hroot⟩ := h.root_node
  have hpos : root < t.size := (List.getElem?_eq_some_iff.mp hroot).1
  rw [List.count_cons, h.count_eq hxs, List.nodup_range.count]
  by_cases hi : i = root
  · simp [hi, hpos]
  · simp [hi, Ne.symm hi]

theorem depthFirst_descendantIds (h : t.WellFormed) :
    DepthFirst t (t.childrenOf root) t.descendantIds := by
  obtain ⟨xs, hxs⟩ := h.exists_depthFirst_childrenOf root
  have hlen : xs.length ≤ t.size := by
    have hperm := (h.perm_range hxs).length_eq
    rw [List.length_cons, List.length_range] at hperm
    omega
  have hwalk := hxs.preorder_append hlen []
  rw [List.append_nil] at hwalk
  have hids : t.descendantIds = xs := by
    rw [descendantIds, hwalk]
    cases t.size - xs.length <;> simp [preorder]
  rw [hids]
  exact hxs

/-- The nodes of a tree are its root and its descendants. -/
theorem nodes_perm (h : t.WellFormed) {children : List Nat}
    (hroot : t.node? root = some ⟨[], [], none, children⟩) :
    (⟨[], [], none, children⟩ :: t.descendants).Perm t.nodes := by
  have hnodes : (List.range t.size).filterMap t.node? = t.nodes :=
    Lists.filterMap_getElem?_range t.nodes
  have hperm := (h.perm_range h.depthFirst_descendantIds).filterMap t.node?
  rwa [List.filterMap_cons_some hroot, hnodes] at hperm

theorem mem_nodes_of_mem_descendants (h : t.WellFormed) {n : Node} (hn : n ∈ t.descendants) :
    n ∈ t.nodes := by
  obtain ⟨children, hroot⟩ := h.root_node
  exact (h.nodes_perm hroot).mem_iff.mp (List.mem_cons_of_mem _ hn)

theorem path_ne_nil_of_mem_descendants (h : t.WellFormed) {n : Node}
    (hn : n ∈ t.descendants) : n.path ≠ [] := by
  obtain ⟨children, hroot⟩ := h.root_node
  have hnodup := ((h.nodes_perm hroot).map Node.path).nodup_iff.mpr h.paths_nodup
  rw [List.map_cons, List.nodup_cons] at hnodup
  intro hpath
  exact hnodup.1 (List.mem_map.mpr ⟨n, hn, hpath⟩)

end WellFormed

/-! ## Entries of a tree -/

theorem entries_eq : t.entries = t.descendants.filterMap Node.entry? := rfl

theorem WellFormed.entries_perm (h : t.WellFormed) :
    t.entries.Perm (t.nodes.filterMap Node.entry?) := by
  obtain ⟨children, hroot⟩ := h.root_node
  exact (h.nodes_perm hroot).filterMap Node.entry?

theorem wellFormed_build (es : List (Text × Text)) : (build es).WellFormed := by
  obtain ⟨h, hbuild⟩ := build_eq_ofPaths es
  rw [hbuild]
  exact wellFormed_ofPaths h (by simp [valueOf])

theorem value_eq_of_mem_build {es : List (Text × Text)} {n : Node} (hn : n ∈ (build es).nodes) :
    n.value = valueOf es n.path := by
  obtain ⟨-, hbuild⟩ := build_eq_ofPaths es
  rw [hbuild] at hn
  obtain ⟨p, -, rfl⟩ := List.mem_map.mp hn
  rfl

theorem entries_build_perm (es : List (Text × Text)) :
    (build es).entries.Perm
      ((pathsOf es).filterMap fun p => (valueOf es p).map fun v => (p, v)) := by
  obtain ⟨-, hbuild⟩ := build_eq_ofPaths es
  have hnodes : (build es).nodes.filterMap Node.entry? =
      (pathsOf es).filterMap fun p => (valueOf es p).map fun v => (p, v) := by
    rw [hbuild, ofPaths, List.filterMap_map]
    rfl
  exact hnodes ▸ (wellFormed_build es).entries_perm

/-- The entries of a built tree are its keys with their last values. -/
theorem mem_entries_build {es : List (Text × Text)} {p v : Text} :
    (p, v) ∈ (build es).entries ↔ valueOf es p = some v := by
  rw [(entries_build_perm es).mem_iff, List.mem_filterMap]
  constructor
  · rintro ⟨q, -, hq⟩
    obtain ⟨w, hw, heq⟩ := Option.map_eq_some_iff.mp hq
    obtain ⟨rfl, rfl⟩ := Prod.mk.inj heq
    exact hw
  · intro hv
    have hp : p ∈ pathsOf es := by
      refine Decidable.byContradiction fun hp => ?_
      rw [valueOf_of_not_mem hp] at hv
      exact Option.some_ne_none v hv.symm
    exact ⟨p, hp, by rw [hv, Option.map_some]⟩

theorem nodup_entries_build (es : List (Text × Text)) :
    ((build es).entries.map Prod.fst).Nodup := by
  obtain ⟨h, -⟩ := build_eq_ofPaths es
  refine ((entries_build_perm es).map Prod.fst).nodup_iff.mpr ?_
  have hguard : (fun p => ((valueOf es p).map fun v => (p, v)).map Prod.fst) =
      Option.guard fun p => (valueOf es p).isSome := by
    funext p
    cases hv : valueOf es p <;> simp [Option.guard, hv]
  rw [List.map_filterMap, hguard, List.filterMap_eq_filter]
  exact h.nodup.sublist List.filter_sublist

end KeyTree
end ResourceBundles
