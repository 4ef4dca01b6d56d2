import ResourceBundles.Analysis
import ResourceBundles.Proofs.Bundle
import ResourceBundles.Proofs.KeyTree.DepthFirst
import Mathlib

/-!
# Exactness of analyses

An analysis looks at the entries of a bundle and at the leaves of its key tree, and
joins the two by their keys.  Nothing is lost or doubled on the way: every entry with
a key has one signature, and the issues are those of the entries one by one.
-/

namespace ResourceBundles

namespace Entry

def signature (style : Style) (e : Entry) : Signature := ⟨e.key, e.value, style.resolve e.value⟩

/-- The issues of an entry of a given file, judged by nothing but the entry. -/
def issues (file : Text) (style : Style) (e : Entry) : List Issue :=
  if e.key = [] then [.emptyKey ⟨file, e.line⟩ e.value]
  else
    (if (Dotted.segments e.key).contains [] then [.emptySegment ⟨file, e.line⟩ e.key] else []) ++
    match style.resolve e.value with
    | .ok _ => []
    | .error error => [.patternSyntax ⟨file, e.line⟩ e.key e.value error]

end Entry

variable {b : Bundle} {style : Style} {path : Text} {s : Signature} {e : Entry}

/-! ## Leaves and entries -/

namespace Bundle.Coherent

theorem valueOf_pairs (h : b.Coherent) (hpath : path ≠ []) :
    KeyTree.valueOf b.pairs path = (b.get? path).map Entry.value := by
  have hfilter : (b.pairs.filter fun p => p.1 = path) =
      (b.entries.filter fun e => e.key = path).map fun e => (e.key, e.value) := by
    rw [pairs, List.filter_map]
    rfl
  rw [KeyTree.valueOf, if_neg hpath, hfilter, List.getLast?_map, Option.map_map,
    h.get?_eq_last? path]
  rfl

theorem mem_entries_build_pairs {value : Text} (h : b.Coherent) :
    (path, value) ∈ (KeyTree.build b.pairs).entries ↔
      ∃ e ∈ b.entries, e.key ≠ [] ∧ e.key = path ∧ e.value = value := by
  rw [KeyTree.mem_entries_build]
  by_cases hpath : path = []
  · subst hpath
    simp only [KeyTree.valueOf, if_true]
    constructor
    · intro hnone
      exact absurd hnone.symm (Option.some_ne_none value)
    · rintro ⟨e, -, hne, hkey, -⟩
      exact absurd hkey hne
  · rw [h.valueOf_pairs hpath, Option.map_eq_some_iff]
    constructor
    · rintro ⟨e, he, hvalue⟩
      obtain ⟨hmem, hkey⟩ := h.get?_eq_some.mp he
      exact ⟨e, hmem, hkey ▸ hpath, hkey, hvalue⟩
    · rintro ⟨e, hmem, -, hkey, hvalue⟩
      exact ⟨e, h.get?_eq_some.mpr ⟨hmem, hkey⟩, hvalue⟩

/-! ## Signatures -/

theorem mem_signatures (h : b.Coherent) :
    s ∈ (KeyTree.build b.pairs).signatures style ↔
      ∃ e ∈ b.entries, e.key ≠ [] ∧ s = e.signature style := by
  rw [KeyTree.signatures, List.mem_map]
  constructor
  · rintro ⟨⟨path, value⟩, hmem, rfl⟩
    obtain ⟨e, he, hne, rfl, rfl⟩ := h.mem_entries_build_pairs.mp hmem
    exact ⟨e, he, hne, rfl⟩
  · rintro ⟨e, he, hne, rfl⟩
    exact ⟨(e.key, e.value), h.mem_entries_build_pairs.mpr ⟨e, he, hne, rfl, rfl⟩, rfl⟩

/-- The signatures follow the nodes of the tree in depth-first order. -/
theorem signatures_eq (h : b.Coherent) (style : Style) :
    (KeyTree.build b.pairs).signatures style =
      (KeyTree.build b.pairs).descendants.filterMap fun n =>
        (b.get? n.path).map (Entry.signature style) := by
  rw [KeyTree.signatures, KeyTree.entries_eq, List.map_filterMap]
  refine List.filterMap_congr fun n hn => ?_
  have hwell := KeyTree.wellFormed_build b.pairs
  have hvalue := KeyTree.value_eq_of_mem_build (hwell.mem_nodes_of_mem_descendants hn)
  rw [h.valueOf_pairs (hwell.path_ne_nil_of_mem_descendants hn)] at hvalue
  rw [Node.entry?, hvalue]
  cases he : b.get? n.path with
  | none => rfl
  | some e =>
      obtain ⟨-, hkey⟩ := h.get?_eq_some.mp he
      simp only [Option.map_some, Entry.signature, hkey]

end Bundle.Coherent

theorem KeyTree.nodup_signatures (es : List (Text × Text)) (style : Style) :
    (((build es).signatures style).map Signature.path).Nodup := by
  rw [signatures, List.map_map]
  exact nodup_entries_build es

namespace Bundle.Coherent

theorem signatures_perm (h : b.Coherent) (style : Style) :
    ((KeyTree.build b.pairs).signatures style).Perm
      ((b.entries.filter fun e => e.key ≠ []).map (Entry.signature style)) := by
  have hleft := List.Nodup.of_map _ (KeyTree.nodup_signatures b.pairs style)
  have hright : ((b.entries.filter fun e => e.key ≠ []).map (Entry.signature style)).Nodup := by
    refine List.Nodup.of_map Signature.path ?_
    rw [List.map_map]
    exact h.keys_nodup.sublist (List.filter_sublist.map Entry.key)
  rw [List.perm_ext_iff_of_nodup hleft hright]
  intro s
  rw [h.mem_signatures, List.mem_map]
  constructor
  · rintro ⟨e, he, hne, rfl⟩
    exact ⟨e, List.mem_filter.mpr ⟨he, decide_eq_true hne⟩, rfl⟩
  · rintro ⟨e, he, rfl⟩
    obtain ⟨hmem, hne⟩ := List.mem_filter.mp he
    exact ⟨e, hmem, of_decide_eq_true hne, rfl⟩

end Bundle.Coherent

/-! ## Issues -/

namespace Analysis

/-- The issue about a key and the issue about its value, found apart, are the issues
of the entry; the line is found by the key. -/
theorem keyIssue?_append_valueIssue? (h : b.Coherent) (file : Text) (he : e ∈ b.entries) :
    (keyIssue? file e).toList ++
      (if e.key = [] then [] else (valueIssue? file b (e.signature style)).toList) =
    e.issues file style := by
  have hget : b.get? e.key = some e := h.get?_eq_some.mpr ⟨he, rfl⟩
  have hany : (Dotted.segments e.key).any List.isEmpty = (Dotted.segments e.key).contains [] := by
    rw [Bool.eq_iff_iff]
    simp
  by_cases hkey : e.key = []
  · simp [keyIssue?, Entry.issues, hkey]
  · rw [keyIssue?, Entry.issues, if_neg hkey, if_neg hkey, if_neg hkey]
    congr 1
    · simp only [hany]
      split <;> rfl
    · simp only [valueIssue?, Entry.signature, hget, Option.map_some, Option.getD_some]
      cases style.resolve e.value <;> rfl

theorem issues_perm (h : b.Coherent) (source : Source) (style : Style) :
    (ofBundle source style b).issues.Perm
      (b.entries.flatMap (Entry.issues source.path.text style)) := by
  let file := source.path.text
  have hkeys : b.entries.filterMap (keyIssue? file) =
      b.entries.flatMap fun e => (keyIssue? file e).toList := List.filterMap_eq_flatMap_toList ..
  have hvalues : ((b.entries.filter fun e => e.key ≠ []).map (Entry.signature style)).filterMap
        (valueIssue? file b) =
      b.entries.flatMap fun e =>
        if e.key = [] then [] else (valueIssue? file b (e.signature style)).toList := by
    rw [List.filterMap_map, List.filterMap_filter, List.filterMap_eq_flatMap_toList]
    refine List.flatMap_congr fun e _ => ?_
    by_cases hkey : e.key = [] <;> simp [hkey]
  have hissues : b.entries.flatMap (Entry.issues file style) =
      b.entries.flatMap fun e => (keyIssue? file e).toList ++
        (if e.key = [] then [] else (valueIssue? file b (e.signature style)).toList) :=
    List.flatMap_congr fun e he => (keyIssue?_append_valueIssue? h file he).symm
  have hfound := (h.signatures_perm style).filterMap (valueIssue? file b)
  rw [hvalues] at hfound
  rw [ofBundle, hissues, hkeys]
  exact (hfound.append_left _).trans (List.flatMap_append_perm ..)

theorem entryCount_eq (h : b.Coherent) (source : Source) (style : Style) :
    (ofBundle source style b).entryCount =
      (ofBundle source style b).signatures.length + if [] ∈ b.keys then 1 else 0 := by
  have hsignatures := (h.signatures_perm style).length_eq
  have hempty : (b.entries.filter fun e => !decide (e.key ≠ [])).length = b.keys.count [] := by
    rw [Bundle.keys, List.count, List.countP_map, List.countP_eq_length_filter]
    congr 2
    funext e
    by_cases hkey : e.key = [] <;> simp [hkey]
  have hcount : b.keys.count [] = if [] ∈ b.keys then 1 else 0 := h.keys_nodup.count
  rw [List.length_map] at hsignatures
  rw [← hcount, ← hempty]
  simp only [ofBundle, hsignatures, Bundle.size]
  exact List.length_eq_length_filter_add ..

/-- The analysis of a bundle is exact, however the bundle was put together. -/
theorem ofBundle_exact (source : Source) (style : Style) (es : List Entry) :
    let b := Bundle.ofEntries es
    let a := ofBundle source style b
    (∀ e, e ∈ b.entries ↔ Entry.last? es e.key = some e) ∧ b.keys.Nodup ∧
      (∃ ids, KeyTree.DepthFirst a.tree (a.tree.childrenOf KeyTree.root) ids ∧
        a.signatures = (ids.filterMap a.tree.node?).filterMap fun n =>
          (b.get? n.path).map (Entry.signature style)) ∧
      (a.signatures.map Signature.path).Nodup ∧
      (∀ s, s ∈ a.signatures ↔ ∃ e ∈ b.entries, e.key ≠ [] ∧ s = e.signature style) ∧
      a.issues.Perm (b.entries.flatMap (Entry.issues source.path.text style)) ∧
      a.entryCount = a.signatures.length + if [] ∈ b.keys then 1 else 0 := by
  intro b a
  have h : b.Coherent := Bundle.coherent_ofEntries es
  have hwell := KeyTree.wellFormed_build b.pairs
  refine ⟨fun e => Bundle.mem_entries_ofEntries, h.keys_nodup, ?_, ?_, fun s => h.mem_signatures,
    issues_perm h source style, entryCount_eq h source style⟩
  · exact ⟨_, hwell.depthFirst_descendantIds, h.signatures_eq style⟩
  · exact KeyTree.nodup_signatures b.pairs style

end Analysis
end ResourceBundles
