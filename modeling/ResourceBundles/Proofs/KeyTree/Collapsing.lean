import ResourceBundles.Proofs.Bundle
import ResourceBundles.Proofs.KeyTree.Reference

/-!
# Repeated definitions

A key that is defined again keeps its place and changes its value, both among the
entries of a bundle and in a key tree.  One more definition therefore means the same
on both sides, and by induction a tree can be built from all definitions or from the
entries that a bundle keeps of them.
-/

namespace ResourceBundles

namespace KeyTree

variable {es fs : List (Text × Text)} {key value p : Text}

/-- The entries with a new value in every place where they define a key. -/
def redefine (es : List (Text × Text)) (key value : Text) : List (Text × Text) :=
  es.map fun e => if e.1 = key then (key, value) else e

theorem map_fst_redefine : (redefine es key value).map Prod.fst = es.map Prod.fst := by
  rw [redefine, List.map_map, List.map_inj_left]
  intro e _
  by_cases he : e.1 = key <;> simp [he]

/-- The paths of a tree depend on the keys alone. -/
theorem pathsOf_congr (h : es.map Prod.fst = fs.map Prod.fst) : pathsOf es = pathsOf fs := by
  have hlineages : ∀ gs : List (Text × Text),
      (gs.flatMap fun e => Dotted.lineage e.1) = (gs.map Prod.fst).flatMap Dotted.lineage :=
    fun gs => (List.flatMap_map ..).symm
  rw [pathsOf, pathsOf, hlineages, hlineages, h]

theorem pathsOf_concat_of_mem (h : key ∈ es.map Prod.fst) :
    pathsOf (es ++ [(key, value)]) = pathsOf es := by
  obtain ⟨e, he, rfl⟩ := List.mem_map.mp h
  have hlineage : (Dotted.lineage e.1).filter (· ∉ pathsOf es) = [] := by
    rw [List.filter_eq_nil_iff]
    intro q hq
    simpa using mem_pathsOf.mpr (.inr ⟨e, he, hq⟩)
  rw [pathsOf_concat, grownPaths, hlineage, List.append_nil]

theorem filter_redefine_self :
    ((redefine es key value).filter fun e => e.1 = key) =
      (es.filter fun e => e.1 = key).map fun _ => (key, value) := by
  induction es with
  | nil => rfl
  | cons e es ih =>
      rw [redefine] at ih
      by_cases he : e.1 = key <;> simp [redefine, he, ih]

theorem filter_redefine_of_ne (hp : p ≠ key) :
    ((redefine es key value).filter fun e => e.1 = p) = es.filter fun e => e.1 = p := by
  induction es with
  | nil => rfl
  | cons e es ih =>
      rw [redefine] at ih
      by_cases he : e.1 = key
      · have hep : e.1 ≠ p := fun h => hp (h.symm.trans he)
        simp [redefine, he, Ne.symm hp, ih]
      · rw [redefine, List.map_cons, if_neg he, List.filter_cons, List.filter_cons, ih]

theorem valueOf_redefine (h : key ∈ es.map Prod.fst) :
    valueOf (redefine es key value) p = valueOf (es ++ [(key, value)]) p := by
  by_cases hnil : p = []
  · simp [valueOf, hnil]
  by_cases hp : p = key
  · have hne : (es.filter fun e => e.1 = key) ≠ [] := by
      obtain ⟨e, he, hkey⟩ := List.mem_map.mp h
      exact List.ne_nil_of_mem (List.mem_filter.mpr ⟨he, decide_eq_true hkey⟩)
    subst hp
    rw [valueOf_concat hnil, if_pos rfl, valueOf, if_neg hnil, filter_redefine_self,
      List.getLast?_map, List.getLast?_eq_some_getLast hne]
    rfl
  · simp [valueOf, hnil, filter_redefine_of_ne hp, Ne.symm hp]

/-- A tree built with a new value in the old places is the tree that takes the new value
last. -/
theorem build_redefine (h : key ∈ es.map Prod.fst) :
    build (redefine es key value) = (build es).insert key value := by
  obtain ⟨-, hleft⟩ := build_eq_ofPaths (redefine es key value)
  obtain ⟨-, hright⟩ := build_eq_ofPaths (es ++ [(key, value)])
  rw [← build_concat, hleft, hright, pathsOf_concat_of_mem h, pathsOf_congr map_fst_redefine]
  exact ofPaths_congr fun p _ => valueOf_redefine h

end KeyTree

namespace Bundle

variable {b : Bundle} {e : Entry}

theorem map_fst_pairs (b : Bundle) : b.pairs.map Prod.fst = b.keys := by
  rw [pairs, List.map_map]
  rfl

namespace Coherent

theorem pairs_insert_of_mem (h : b.Coherent) (hkey : e.key ∈ b.keys) :
    (b.insert e).pairs = KeyTree.redefine b.pairs e.key e.value := by
  rw [pairs, h.entries_insert_of_mem hkey, pairs, KeyTree.redefine, List.map_map, List.map_map,
    List.map_inj_left]
  intro old _
  by_cases hold : old.key = e.key <;> simp [hold]

theorem pairs_insert_of_not_mem (h : b.Coherent) (hkey : e.key ∉ b.keys) :
    (b.insert e).pairs = b.pairs ++ [(e.key, e.value)] := by
  rw [h.insert_of_not_mem hkey, pairs, List.map_append]
  rfl

/-- One more definition makes the same tree on both sides. -/
theorem build_pairs_insert (h : b.Coherent) (e : Entry) :
    KeyTree.build (b.insert e).pairs = (KeyTree.build b.pairs).insert e.key e.value := by
  by_cases hkey : e.key ∈ b.keys
  · rw [h.pairs_insert_of_mem hkey]
    apply KeyTree.build_redefine
    rwa [map_fst_pairs]
  · rw [h.pairs_insert_of_not_mem hkey, KeyTree.build_concat]

end Coherent

/-- Definitions that a bundle collapses to its entries build the tree that they build one
by one. -/
theorem build_pairs_ofEntries (es : List Entry) :
    KeyTree.build (ofEntries es).pairs = KeyTree.build (es.map fun e => (e.key, e.value)) := by
  induction es using List.reverseRecOn with
  | nil => rfl
  | append_singleton es e ih =>
      rw [ofEntries_concat, (coherent_ofEntries es).build_pairs_insert, ih, List.map_append,
        List.map_singleton, KeyTree.build_concat]

end Bundle
end ResourceBundles
