import ResourceBundles.Proofs.KeyTree.Reference

/-!
# The shape of key trees

In every tree that comes about by insertions, nodes, children and the index agree:
the index finds exactly the nodes, every node but the root is named by its path and
is a child once, of the node of its parent path, and children come in ascending
order behind their parent.
-/

namespace ResourceBundles.KeyTree

/-- Nodes, children and the index of a tree agree. -/
structure WellFormed (t : KeyTree) : Prop where
  /-- Number 0 is the root, without name, path and value. -/
  root_node : ∃ children, t.node? root = some ⟨[], [], none, children⟩
  /-- The index finds the node of a path, and nothing else. -/
  find?_eq_some_iff : ∀ p i, t.find? p = some i ↔ ∃ n, t.node? i = some n ∧ n.path = p
  paths_nodup : (t.nodes.map Node.path).Nodup
  /-- Every other node is a child once, below the node of its parent path. -/
  parent : ∀ i n, i ≠ root → t.node? i = some n →
    ∃ j m, t.node? j = some m ∧ Dotted.Splits n.path m.path n.name ∧
      m.children.count i = 1 ∧ ∀ k, k ≠ j → i ∉ t.childrenOf k
  /-- Children are nodes that come behind their parent. -/
  child_lt : ∀ j, ∀ i ∈ t.childrenOf j, j < i ∧ i < t.size
  children_increasing : ∀ j, (t.childrenOf j).Pairwise (· < ·)

variable {ps : List Text} {values : Text → Option Text} {p q : Text} {i j : Nat}

theorem childrenOf_eq {t : KeyTree} {n : Node} (hn : t.node? i = some n) :
    t.childrenOf i = n.children := by
  rw [childrenOf, hn, Option.elim_some]

theorem childrenOf_ofPaths : (ofPaths ps values).childrenOf i = ps[i]?.elim [] (childIds ps) := by
  rw [childrenOf, node?_ofPaths]
  cases ps[i]? <;> rfl

theorem childrenOf_build (es : List (Text × Text)) (i : Nat) :
    (build es).childrenOf i = (pathsOf es)[i]?.elim [] (childIds (pathsOf es)) := by
  obtain ⟨-, hbuild⟩ := build_eq_ofPaths es
  rw [hbuild, childrenOf_ofPaths]

theorem mem_childrenOf_ofPaths : j ∈ (ofPaths ps values).childrenOf i ↔
    ∃ q, ps[j]? = some q ∧ q ≠ [] ∧ ps[i]? = some (Dotted.parent q) := by
  rw [childrenOf_ofPaths]
  cases hi : ps[i]? with
  | none => simp
  | some p =>
      rw [Option.elim_some, mem_childIds]
      simp only [Option.some.injEq, eq_comm]

theorem childIds_increasing (ps : List Text) (p : Text) : (childIds ps p).Pairwise (· < ·) := by
  have hnumbers : (ps.zipIdx.map Prod.snd).Pairwise (· < ·) := by
    rw [List.zipIdx_map_snd]
    exact List.pairwise_lt_range'
  exact hnumbers.sublist (List.filter_sublist.map Prod.snd)

theorem wellFormed_ofPaths (h : Hierarchy ps) (hnil : values [] = none) :
    (ofPaths ps values).WellFormed where
  root_node := by
    refine ⟨childIds ps [], ?_⟩
    rw [node?_ofPaths, root, h.getElem?_zero, Option.map_some, nodeOf, hnil]
    rfl
  find?_eq_some_iff := by
    intro p i
    rw [find?_ofPaths values h, node?_ofPaths]
    cases ps[i]? <;> simp [nodeOf]
  paths_nodup := by
    have hpaths : (ofPaths ps values).nodes.map Node.path = ps := by
      simp [ofPaths, nodeOf, Function.comp_def]
    rw [hpaths]
    exact h.nodup
  parent := by
    intro i n hi hn
    rw [node?_ofPaths, Option.map_eq_some_iff] at hn
    obtain ⟨q, hq, rfl⟩ := hn
    have hne : q ≠ [] := by
      rintro rfl
      exact hi (Lists.place_unique h.nodup hq h.getElem?_zero)
    obtain ⟨j, hj⟩ := List.mem_iff_getElem?.mp (h.parent_mem (List.mem_of_getElem? hq))
    refine ⟨j, nodeOf ps values (Dotted.parent q), ?_, Dotted.splits_self q, ?_, ?_⟩
    · rw [node?_ofPaths, hj, Option.map_some]
    · exact List.count_eq_one_of_mem ((childIds_increasing ps _).imp Nat.ne_of_lt)
        (mem_childIds.mpr ⟨q, hq, hne, rfl⟩)
    · intro k hk hmem
      obtain ⟨r, hr, -, hkr⟩ := mem_childrenOf_ofPaths.mp hmem
      obtain rfl : q = r := Option.some.inj (hq.symm.trans hr)
      exact hk (Lists.place_unique h.nodup hkr hj)
  child_lt := by
    intro j i hmem
    obtain ⟨q, hq, hne, hj⟩ := mem_childrenOf_ofPaths.mp hmem
    rw [size_ofPaths]
    exact ⟨h.parent_lt hq hne hj, (List.getElem?_eq_some_iff.mp hq).1⟩
  children_increasing := by
    intro j
    rw [childrenOf_ofPaths]
    cases ps[j]? with
    | none => exact List.Pairwise.nil
    | some p => exact childIds_increasing ps p

/-- The tree is well formed after each of the entries it is built from. -/
theorem build_wellFormed (es : List (Text × Text)) (n : Nat) :
    (build (es.take n)).WellFormed := by
  obtain ⟨h, hbuild⟩ := build_eq_ofPaths (es.take n)
  rw [hbuild]
  exact wellFormed_ofPaths h (by simp [valueOf])

end ResourceBundles.KeyTree
