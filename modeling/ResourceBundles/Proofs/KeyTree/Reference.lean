import ResourceBundles.Proofs.KeyTree.Growth

/-!
# What a key tree is built from

The paths of a built tree are the members of the lineages of its keys, in the order
in which they first occur behind the root, and a node has the value of the last
entry for its path.  Nothing else about the entries matters.
-/

namespace ResourceBundles.KeyTree

/-- The paths that some entries call for: the root's, then the lineages of the keys,
every path where it first occurs. -/
def pathsOf (es : List (Text × Text)) : List Text :=
  [] :: (es.flatMap fun e => Dotted.lineage e.1).eraseDups

/-- The value of the last entry for a path.  The root takes no value. -/
def valueOf (es : List (Text × Text)) (path : Text) : Option Text :=
  if path = [] then none else ((es.filter fun e => e.1 = path).getLast?).map Prod.snd

variable {es : List (Text × Text)} {p key value : Text}

theorem mem_pathsOf : p ∈ pathsOf es ↔ p = [] ∨ ∃ e ∈ es, p ∈ Dotted.lineage e.1 := by
  simp [pathsOf]

theorem pathsOf_concat : pathsOf (es ++ [(key, value)]) = grownPaths (pathsOf es) key := by
  have hfilter : (Dotted.lineage key).filter (· ∉ pathsOf es) =
      (Dotted.lineage key).removeAll (es.flatMap fun e => Dotted.lineage e.1) := by
    rw [List.removeAll]
    refine List.filter_congr fun q hq => ?_
    have hne : q ≠ [] := fun he => Dotted.not_nil_mem_lineage key (he ▸ hq)
    simp [mem_pathsOf, hne]
  have hnodup : ((Dotted.lineage key).filter (· ∉ pathsOf es)).Nodup :=
    (Dotted.lineage_nodup key).filter _
  rw [grownPaths, pathsOf, List.flatMap_append, List.eraseDups_append, List.flatMap_singleton,
    ← hfilter, Lists.eraseDups_of_nodup hnodup]
  rfl

theorem valueOf_concat (hkey : key ≠ []) :
    valueOf (es ++ [(key, value)]) p = if p = key then some value else valueOf es p := by
  by_cases hp : p = key
  · simp [valueOf, hp, hkey]
  · simp [valueOf, hp, Ne.symm hp]

theorem valueOf_concat_nil : valueOf (es ++ [([], value)]) p = valueOf es p := by
  by_cases hp : p = []
  · simp [valueOf, hp]
  · simp [valueOf, Ne.symm hp]

theorem valueOf_of_not_mem (h : p ∉ pathsOf es) : valueOf es p = none := by
  have hne : p ≠ [] := fun he => h (mem_pathsOf.mpr (.inl he))
  have hfilter : (es.filter fun e => e.1 = p) = [] := by
    rw [List.filter_eq_nil_iff]
    intro e he hep
    obtain rfl : e.1 = p := by simpa using hep
    exact h (mem_pathsOf.mpr (.inr ⟨e, he, Dotted.self_mem_lineage hne⟩))
  simp [valueOf, hfilter]

/-- A path has a value exactly if it is a key. -/
theorem isSome_valueOf_iff : (valueOf es p).isSome ↔ p ≠ [] ∧ p ∈ es.map Prod.fst := by
  by_cases hp : p = []
  · simp [valueOf, hp]
  · have hfilter : (es.filter fun e => e.1 = p) ≠ [] ↔ p ∈ es.map Prod.fst := by
      simp [List.filter_eq_nil_iff]
    rw [valueOf, if_neg hp, Option.isSome_map, List.getLast?_isSome, hfilter]
    exact (and_iff_right hp).symm

/-- A built tree is the tree of the paths and values of its entries. -/
theorem build_eq_ofPaths (es : List (Text × Text)) :
    Hierarchy (pathsOf es) ∧ build es = ofPaths (pathsOf es) (valueOf es) := by
  induction es using List.reverseRecOn with
  | nil => exact ⟨.root, rfl⟩
  | append_singleton es e ih =>
      obtain ⟨key, value⟩ := e
      obtain ⟨h, hbuild⟩ := ih
      rw [build_concat, hbuild, pathsOf_concat]
      by_cases hkey : key = []
      · subst hkey
        have hgrown : grownPaths (pathsOf es) [] = pathsOf es := by simp [grownPaths]
        rw [hgrown]
        exact ⟨h, ofPaths_congr fun p _ => valueOf_concat_nil.symm⟩
      · obtain ⟨hgrown, hinsert⟩ := insert_ofPaths h hkey fun p => valueOf_of_not_mem
        refine ⟨hgrown, hinsert.trans (ofPaths_congr fun p _ => ?_)⟩
        exact (valueOf_concat hkey).symm

theorem node?_build (es : List (Text × Text)) (i : Nat) :
    (build es).node? i = (pathsOf es)[i]?.map (nodeOf (pathsOf es) (valueOf es)) := by
  obtain ⟨-, hbuild⟩ := build_eq_ofPaths es
  rw [hbuild, node?_ofPaths]

theorem get?_build_eq_some {n : Node} :
    (build es).get? p = some n ↔ n ∈ (build es).nodes ∧ n.path = p := by
  obtain ⟨h, hbuild⟩ := build_eq_ofPaths es
  simp only [get?, Option.bind_eq_some_iff, hbuild, find?_ofPaths _ h, node?_ofPaths]
  constructor
  · rintro ⟨i, hi, hn⟩
    rw [hi] at hn
    obtain rfl := Option.some.inj hn
    exact ⟨List.mem_map_of_mem (List.mem_of_getElem? hi), rfl⟩
  · rintro ⟨hn, rfl⟩
    obtain ⟨q, hq, rfl⟩ := List.mem_map.mp hn
    obtain ⟨i, hi⟩ := List.mem_iff_getElem?.mp hq
    exact ⟨i, hi, by rw [hi]; rfl⟩

/-- A built tree has exactly the paths and values that its entries call for, and
a look-up finds exactly its nodes. -/
theorem build_paths_values (es : List (Text × Text)) :
    (build es).nodes.map Node.path = pathsOf es ∧
      (∀ n ∈ (build es).nodes, n.value = valueOf es n.path) ∧
      (∀ p n, (build es).get? p = some n ↔ n ∈ (build es).nodes ∧ n.path = p) ∧
      (∀ p, ((build es).get? p).isSome ↔ p ∈ pathsOf es) ∧
      (build es).size = (pathsOf es).length := by
  obtain ⟨-, hbuild⟩ := build_eq_ofPaths es
  have hpaths : (build es).nodes.map Node.path = pathsOf es := by
    rw [hbuild]
    simp [ofPaths, nodeOf, Function.comp_def]
  refine ⟨hpaths, ?_, fun p n => get?_build_eq_some, ?_, ?_⟩
  · rw [hbuild]
    intro n hn
    obtain ⟨p, -, rfl⟩ := List.mem_map.mp hn
    rfl
  · intro p
    rw [← hpaths, List.mem_map, Option.isSome_iff_exists]
    simp only [get?_build_eq_some]
  · rw [← hpaths, List.length_map, size]

end ResourceBundles.KeyTree
