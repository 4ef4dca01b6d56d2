import ResourceBundles.Proofs.KeyTree.Reference

/-!
# The way up to the nearest ancestor

A new key is put below the nearest ancestor that has a node.  The walk up to it has no bound of
its own: it ends since a path that is not empty is longer than its parent and the empty path has
its node in every built tree.  What it passes is all that the key lacks, since no built tree has
a path without its parent.
-/

namespace ResourceBundles.KeyTree

variable {t : KeyTree} {es : List (Text × Text)} {paths : List Text} {p q top key : Text} {id : Nat}

/-! ## The walk -/

/-- The walk from a path up to the first one that has a node, with the paths that it passes.
There is no case for a root without a node: such a walk never ends. -/
inductive Climb (t : KeyTree) : Text → List Text → Text → Nat → Prop
  | found {p : Text} {id : Nat} (h : t.find? p = some id) : Climb t p [] p id
  | absent {p top : Text} {paths : List Text} {id : Nat} (h : t.find? p = none)
      (hup : Climb t (Dotted.parent p) paths top id) : Climb t p (p :: paths) top id

/-- Every walk ends in a tree whose root can be found, by induction from parents to children. -/
theorem climb_missing (hroot : t.find? [] ≠ none) (p : Text) :
    ∃ top, Climb t p (t.missing p).1 top (t.missing p).2 := by
  induction p using Dotted.parent_induction with
  | nil =>
      obtain ⟨id, hid⟩ := Option.ne_none_iff_exists'.mp hroot
      rw [missing_of_find? hid]
      exact ⟨[], .found hid⟩
  | child p hne ih =>
      cases hp : t.find? p with
      | some id =>
          rw [missing_of_find? hp]
          exact ⟨p, .found hp⟩
      | none =>
          obtain ⟨top, htop⟩ := ih
          rw [missing_of_find?_eq_none hp hne]
          exact ⟨top, .absent hp htop⟩

namespace Climb

theorem find?_top (h : Climb t p paths top id) : t.find? top = some id := by
  induction h with
  | found h => exact h
  | absent _ _ ih => exact ih

theorem top_mem (h : Climb t p paths top id) : top ∈ [] :: Dotted.lineage p := by
  induction h with
  | @found p id _ => exact Dotted.mem_cons_lineage.mpr (.inr (.inl rfl))
  | @absent p top paths id _ _ ih =>
      by_cases hp : p = []
      · rw [hp, Dotted.parent_of_not_mem List.not_mem_nil] at ih
        rwa [hp]
      · rw [Dotted.lineage_eq hp, ← List.cons_append]
        exact List.mem_append_left _ ih

/-- Whatever else has a node on the way up from a path is no longer than the end of the walk. -/
theorem length_le (h : Climb t p paths top id) (hq : q ∈ [] :: Dotted.lineage p)
    (hfind : t.find? q ≠ none) : q.length ≤ top.length := by
  induction h with
  | found _ =>
      rcases List.mem_cons.mp hq with rfl | hq
      · exact Nat.zero_le _
      · exact Dotted.length_le_of_mem_lineage hq
  | @absent p top paths id hp _ ih =>
      have hne : q ≠ p := fun he => hfind (he ▸ hp)
      refine ih ?_
      by_cases hp : p = []
      · rw [hp] at hq ⊢
        rwa [Dotted.parent_of_not_mem List.not_mem_nil]
      · rw [Dotted.lineage_eq hp, ← List.cons_append] at hq
        exact (List.mem_append.mp hq).resolve_right fun hq => hne (List.mem_singleton.mp hq)

end Climb

/-! ## Built trees -/

theorem find?_build_eq_none_iff : (build es).find? p = none ↔ p ∉ pathsOf es := by
  obtain ⟨h, hbuild⟩ := build_eq_ofPaths es
  rw [hbuild, find?_ofPaths_eq_none _ h]

theorem find?_build_ne_none_iff : (build es).find? p ≠ none ↔ p ∈ pathsOf es := by
  rw [ne_eq, find?_build_eq_none_iff, not_not]

/-- A built tree has the parent of every path that it has. -/
theorem find?_parent_build (h : (build es).find? p ≠ none) :
    (build es).find? (Dotted.parent p) ≠ none := by
  obtain ⟨hpaths, -⟩ := build_eq_ofPaths es
  exact find?_build_ne_none_iff.mpr (hpaths.parent_mem (find?_build_ne_none_iff.mp h))

theorem find?_nil_build (es : List (Text × Text)) : (build es).find? [] ≠ none :=
  find?_build_ne_none_iff.mpr (mem_pathsOf.mpr (.inl rfl))

theorem missing_build (es : List (Text × Text)) (key : Text) :
    ((build es).missing key).1 = ((Dotted.lineage key).filter (· ∉ pathsOf es)).reverse := by
  obtain ⟨h, hbuild⟩ := build_eq_ofPaths es
  obtain ⟨i, p, hmissing, -⟩ := missing_ofPaths (valueOf es) h key
  rw [hbuild, hmissing]

theorem mem_missing_build : p ∈ ((build es).missing key).1 ↔
    (p = key ∨ Dotted.Above p key) ∧ (build es).find? p = none := by
  rw [missing_build, List.mem_reverse, List.mem_filter, decide_eq_true_iff,
    find?_build_eq_none_iff]
  refine and_congr_left fun hp => ?_
  have hne : p ≠ [] := fun he => hp (mem_pathsOf.mpr (.inl he))
  simpa [hne] using Dotted.mem_cons_lineage (s := p) (t := key)

/-- The nodes made for a new key come behind those of the tree, and the value is with the last. -/
theorem nodes_insert_build (value : Text) (hkey : key ∉ pathsOf es) :
    ((build es).insert key value).nodes.map (fun n => (n.path, n.value)) =
      (build es).nodes.map (fun n => (n.path, n.value)) ++
        ((Dotted.lineage key).filter (· ∉ pathsOf es)).map
          fun p => (p, if p = key then some value else none) := by
  obtain ⟨h, hbuild⟩ := build_eq_ofPaths es
  have hinsert : (ofPaths (pathsOf es) (valueOf es)).insert key value =
      ofPaths (grownPaths (pathsOf es) key) fun p => if p = key then some value else valueOf es p :=
    (insert_ofPaths h (h.ne_nil_of_not_mem hkey) fun p => valueOf_of_not_mem).2
  have hpairs : ∀ ps values, (ofPaths ps values).nodes.map (fun n => (n.path, n.value)) =
      ps.map fun p => (p, values p) := by
    intro ps values
    simp [ofPaths, nodeOf, Function.comp_def]
  rw [hbuild, hinsert, hpairs, hpairs, grownPaths, List.map_append]
  congr 1
  · refine List.map_congr_left fun p hp => ?_
    have hne : p ≠ key := fun he => hkey (he ▸ hp)
    rw [if_neg hne]
  · refine List.map_congr_left fun p hp => ?_
    have hnew : p ∉ pathsOf es := by simpa using (List.mem_filter.mp hp).2
    rw [valueOf_of_not_mem hnew]

/-- A built tree has the parent of every path that it has.  The walk up from a path that it
lacks ends, at the longest ancestor that it has, and passes every path on the way that it lacks
once.  Those paths get the new nodes, and the full path alone gets the value. -/
theorem climb_to_nearest (es : List (Text × Text)) (value : Text)
    (hnew : (build es).find? key = none) :
    (∀ p, (build es).find? p ≠ none → (build es).find? (Dotted.parent p) ≠ none) ∧
      ∃ paths top id, Climb (build es) key paths top id ∧
        (build es).missing key = (paths, id) ∧
        Dotted.Above top key ∧ (build es).find? top = some id ∧
        (∀ p, Dotted.Above p key → (build es).find? p ≠ none → p.length ≤ top.length) ∧
        paths.Nodup ∧
        (∀ p, p ∈ paths ↔ (p = key ∨ Dotted.Above p key) ∧ (build es).find? p = none) ∧
        ((build es).insert key value).nodes.map (fun n => (n.path, n.value)) =
          (build es).nodes.map (fun n => (n.path, n.value)) ++
            paths.reverse.map fun p => (p, if p = key then some value else none) := by
  obtain ⟨top, hclimb⟩ := climb_missing (find?_nil_build es) key
  have htop := hclimb.find?_top
  have hne : top ≠ key := by
    rintro rfl
    simp [hnew] at htop
  refine ⟨fun p => find?_parent_build, _, top, _, hclimb, rfl, ?_, htop, ?_, ?_,
    fun p => mem_missing_build, ?_⟩
  · rcases Dotted.mem_cons_lineage.mp hclimb.top_mem with rfl | heq | habove
    · exact ⟨Ne.symm hne, .inl rfl⟩
    · exact absurd heq hne
    · exact habove
  · intro p hp hfind
    exact hclimb.length_le (Dotted.mem_cons_lineage.mpr (.inr (.inr hp))) hfind
  · rw [missing_build, List.nodup_reverse]
    exact (Dotted.lineage_nodup key).filter _
  · rw [missing_build, List.reverse_reverse]
    exact nodes_insert_build value (find?_build_eq_none_iff.mp hnew)

/-- A key of dots is put below a shorter key of dots, with one path between them. -/
theorem climb_to_nearest_dots :
    let t := build [(".", "1"), ("a.b", "2")]
    t.find? "..." = none ∧
      (∃ top, Climb t "..." [("..." : Text), ".."] top 1 ∧ Dotted.Above top "..." ∧
        ∀ p, Dotted.Above p "..." → t.find? p ≠ none → p.length ≤ top.length) ∧
      (t.insert "..." "3").nodes.map (fun n => (n.path, n.value)) =
        t.nodes.map (fun n => (n.path, n.value)) ++
          [((".." : Text), none), (("..." : Text), some ("3" : Text))] := by
  intro t
  have hnew : t.find? "..." = none := by decide +kernel
  have hwalk : t.missing "..." = ([("..." : Text), ".."], 1) := by decide +kernel
  obtain ⟨-, paths, top, id, hclimb, hmissing, habove, -, hlongest, -, -, hnodes⟩ :=
    climb_to_nearest [(".", "1"), ("a.b", "2")] "3" hnew
  obtain ⟨rfl, rfl⟩ := Prod.mk.inj (hwalk.symm.trans hmissing)
  exact ⟨hnew, ⟨top, hclimb, habove, hlongest⟩, hnodes⟩

end ResourceBundles.KeyTree
