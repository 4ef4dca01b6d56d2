import ResourceBundles.Proofs.KeyTree.Hierarchy
import Mathlib.Data.List.Chain

/-!
# Growth of key trees

Every key that is inserted into a key tree appends the missing part of its lineage
to the paths of the tree.  From this step the paths and values of a built tree
follow by induction on the entries.
-/

namespace ResourceBundles.KeyTree

variable {ps : List Text} {values values' : Text → Option Text} {p q : Text} {i : Nat}

theorem addChild_ofPaths (h : Hierarchy ps) (hi : ps[i]? = some (Dotted.parent q))
    (hq : q ∉ ps) (hold : ∀ p ∈ ps, values' p = values p) :
    (ofPaths ps values).addChild i q (values' q) =
      (ofPaths (ps ++ [q]) values', ps.length) := by
  have hgrown : Hierarchy (ps ++ [q]) := h.grow (List.mem_of_getElem? hi) hq
  have hi' : (ps ++ [q])[i]? = some (Dotted.parent q) := by
    obtain ⟨hlt, -⟩ := List.getElem?_eq_some_iff.mp hi
    rw [List.getElem?_append_left hlt, hi]
  have hnodes : (ofPaths ps values).nodes ++ [⟨Dotted.lastSegment q, q, values' q, []⟩] =
      (ps ++ [q]).map (nodeOf ps values') := by
    have hps : (ofPaths ps values).nodes = ps.map (nodeOf ps values') :=
      congrArg nodes (ofPaths_congr fun p hp => (hold p hp).symm)
    rw [hps, List.map_append, List.map_singleton, nodeOf, childIds_eq_nil h hq]
  have hattach : ∀ p, (if p = Dotted.parent q then
        { nodeOf ps values' p with children := (nodeOf ps values' p).children ++ [ps.length] }
      else nodeOf ps values' p) = nodeOf (ps ++ [q]) values' p := by
    intro p
    simp only [nodeOf, childIds_append]
    by_cases hp : p = Dotted.parent q
    · simp [hp, h.ne_nil_of_not_mem hq]
    · simp [hp, Ne.symm hp]
  have hlen : (ofPaths ps values).nodes.length = ps.length := List.length_map ..
  simp only [addChild, hlen, hnodes, Lists.map_modify hgrown.nodup hi', hattach]
  simp [ofPaths, List.zipIdx_append]

/-! ## Chains of new nodes -/

def Below (above below : Text) : Prop := below ≠ [] ∧ Dotted.parent below = above

theorem Below.length_lt (h : Below p q) : p.length < q.length := by
  obtain ⟨hne, rfl⟩ := h
  exact Dotted.parent_length_lt hne

theorem length_lt_of_isChain {qs : List Text} (h : List.IsChain Below (p :: qs)) (hq : q ∈ qs) :
    p.length < q.length := by
  induction qs generalizing p with
  | nil => simp at hq
  | cons r qs ih =>
      obtain ⟨hr, hqs⟩ := List.isChain_cons_cons.mp h
      rcases List.mem_cons.mp hq with rfl | hq
      · exact hr.length_lt
      · exact Nat.lt_trans hr.length_lt (ih hqs hq)

/-- A chain of new nodes adds its paths in order, and the value with the last of them. -/
theorem addChain_ofPaths {key value : Text} {qs : List Text} (h : Hierarchy ps)
    (hi : ps[i]? = some p) (hchain : List.IsChain Below (p :: qs)) (hqs : ∀ q ∈ qs, q ∉ ps)
    (hold : ∀ p ∈ ps, values' p = values p)
    (hnew : ∀ q ∈ qs, values' q = if q = key then some value else none) :
    Hierarchy (ps ++ qs) ∧
      (ofPaths ps values).addChain i key value qs = ofPaths (ps ++ qs) values' := by
  induction qs generalizing ps values p i with
  | nil =>
      rw [List.append_nil]
      exact ⟨h, ofPaths_congr fun p hp => (hold p hp).symm⟩
  | cons q qs ih =>
      obtain ⟨⟨hne, rfl⟩, hrest⟩ := List.isChain_cons_cons.mp hchain
      have hq : q ∉ ps := hqs q List.mem_cons_self
      have hgrown : Hierarchy (ps ++ [q]) := h.grow (List.mem_of_getElem? hi) hq
      have hstep := addChild_ofPaths h hi hq hold
      rw [hnew q List.mem_cons_self] at hstep
      have hrest' : ∀ r ∈ qs, r ∉ ps ++ [q] := by
        intro r hr hmem
        rcases List.mem_append.mp hmem with hmem | hmem
        · exact hqs r (List.mem_cons_of_mem q hr) hmem
        · have hlt := length_lt_of_isChain hrest hr
          rw [List.mem_singleton.mp hmem] at hlt
          exact Nat.lt_irrefl _ hlt
      have hi' : (ps ++ [q])[ps.length]? = some q := by simp
      have hlast := ih hgrown hi' hrest hrest' (fun p _ => Eq.refl (values' p))
        fun r hr => hnew r (List.mem_cons_of_mem q hr)
      rw [List.append_assoc, List.singleton_append] at hlast
      simp only [addChain, hstep]
      exact hlast

theorem missing_of_find? {t : KeyTree} (h : t.find? p = some i) : t.missing p = ([], i) := by
  rw [missing, h]

theorem missing_of_find?_eq_none {t : KeyTree} (h : t.find? p = none) (hne : p ≠ []) :
    t.missing p = (p :: (t.missing (Dotted.parent p)).1, (t.missing (Dotted.parent p)).2) := by
  rw [missing, h]
  simp [hne]

theorem missing_of_getElem? (values : Text → Option Text) (h : Hierarchy ps)
    (hi : ps[i]? = some q) : (ofPaths ps values).missing q = ([], i) :=
  missing_of_find? ((find?_ofPaths values h).mpr hi)

theorem missing_of_not_mem (values : Text → Option Text) (h : Hierarchy ps) (hq : q ∉ ps) :
    (ofPaths ps values).missing q =
      (q :: ((ofPaths ps values).missing (Dotted.parent q)).1,
        ((ofPaths ps values).missing (Dotted.parent q)).2) :=
  missing_of_find?_eq_none ((find?_ofPaths_eq_none values h).mpr hq) (h.ne_nil_of_not_mem hq)

/-- The walk up from a path collects the missing part of its lineage and stops at
the ancestor from which that part goes on. -/
theorem missing_ofPaths (values : Text → Option Text) (h : Hierarchy ps) (q : Text) :
    ∃ i p, (ofPaths ps values).missing q = (((Dotted.lineage q).filter (· ∉ ps)).reverse, i) ∧
      ps[i]? = some p ∧
      List.IsChain Below (p :: (Dotted.lineage q).filter (· ∉ ps)) ∧
      (p :: (Dotted.lineage q).filter (· ∉ ps)).getLast? = some q := by
  induction q using Dotted.parent_induction with
  | nil =>
      refine ⟨0, [], ?_, h.getElem?_zero, by simp, by simp⟩
      exact missing_of_getElem? values h h.getElem?_zero
  | child q hne ih =>
      by_cases hq : q ∈ ps
      · obtain ⟨i, hi⟩ := List.mem_iff_getElem?.mp hq
        rw [h.missing_lineage hq]
        exact ⟨i, q, missing_of_getElem? values h hi, hi, List.isChain_singleton q, rfl⟩
      · obtain ⟨i, p, hmissing, hi, hchain, hlast⟩ := ih
        have hfilter : (Dotted.lineage q).filter (· ∉ ps) =
            (Dotted.lineage (Dotted.parent q)).filter (· ∉ ps) ++ [q] := by
          rw [Dotted.lineage_eq hne, List.filter_append]
          simp [hq]
        refine ⟨i, p, ?_, hi, ?_, ?_⟩
        · rw [missing_of_not_mem values h hq, hmissing, hfilter, List.reverse_concat]
        · rw [hfilter, ← List.cons_append, List.isChain_append]
          refine ⟨hchain, List.isChain_singleton q, ?_⟩
          intro a ha b hb
          rw [hlast] at ha
          obtain rfl : Dotted.parent q = a := by simpa using ha
          obtain rfl : q = b := by simpa using hb
          exact ⟨hne, rfl⟩
        · rw [hfilter, ← List.cons_append]
          exact List.getLast?_concat

/-! ## Insertion -/

def grownPaths (ps : List Text) (key : Text) : List Text :=
  ps ++ (Dotted.lineage key).filter (· ∉ ps)

/-- A key that has its node gets its value there; a new key gets a chain of nodes. -/
theorem insert_ofPaths {key value : Text} (h : Hierarchy ps) (hkey : key ≠ [])
    (hnone : ∀ p, p ∉ ps → values p = none) :
    Hierarchy (grownPaths ps key) ∧
      (ofPaths ps values).insert key value =
        ofPaths (grownPaths ps key) fun p => if p = key then some value else values p := by
  by_cases hmem : key ∈ ps
  · obtain ⟨i, hi⟩ := List.mem_iff_getElem?.mp hmem
    have hgrown : grownPaths ps key = ps := by
      rw [grownPaths, h.missing_lineage hmem, List.append_nil]
    have hfind := (find?_ofPaths values h).mpr hi
    refine ⟨hgrown.symm ▸ h, ?_⟩
    rw [hgrown]
    simp only [insert, hkey, if_false, hfind]
    simp only [ofPaths, Lists.map_modify h.nodup hi, KeyTree.mk.injEq, and_true, List.map_inj_left]
    intro p _
    by_cases hp : p = key <;> simp [nodeOf, hp]
  · obtain ⟨i, p, hmissing, hi, hchain, -⟩ := missing_ofPaths values h key
    have hfind := (find?_ofPaths_eq_none values h).mpr hmem
    simp only [insert, hkey, if_false, hfind, hmissing, List.reverse_reverse]
    refine addChain_ofPaths h hi hchain ?_ ?_ ?_
    · intro q hq
      simpa using (List.mem_filter.mp hq).2
    · intro p hp
      rw [if_neg]
      rintro rfl
      exact hmem hp
    · intro q hq
      rw [hnone q (by simpa using (List.mem_filter.mp hq).2)]

end ResourceBundles.KeyTree
