import ResourceBundles.Analysis
import ResourceBundles.Proofs.KeyTree.Names

/-!
# Navigation by names

The segments of a path are meant as the names on the way to its node.  They are that if no
segment is empty, which is what the analysis of a bundle warns of: without such a warning
every node is reached by its segments, and with one some node is not.
-/

namespace ResourceBundles

namespace Dotted

variable {t s : Text}

/-- The segments of a path below the root; the root's own path has none. -/
def steps (t : Text) : List Text := if t = [] then [] else segments t

theorem segments_append (front : Text) {back : Text} (h : '.' ∉ back) :
    segments (front ++ '.' :: back) = segments front ++ [back] := by
  rw [segments, List.splitOn_append_cons_self, List.splitOn_eq_singleton h, segments]

theorem segments_cons_dot (t : Text) : segments ('.' :: t) = [] :: segments t := by
  rw [segments, ← List.nil_append ('.' :: t), List.splitOn_append_cons_self, List.splitOn_nil,
    segments, List.singleton_append]

theorem steps_eq (ht : t ≠ []) (hgap : [] ∉ steps t) :
    steps t = steps (parent t) ++ [lastSegment t] := by
  obtain ⟨hn, hsplit | ⟨hp, hsplit⟩⟩ := splits_self t
  · have hsegments := congrArg segments hsplit
    rw [segments_append _ hn] at hsegments
    rw [steps, if_neg ht] at hgap ⊢
    by_cases hp : parent t = []
    · rw [hsegments, hp] at hgap
      exact absurd (by decide : [] ∈ segments []) fun h => hgap (List.mem_append_left _ h)
    · rw [steps, if_neg hp, hsegments]
  · rw [steps, if_neg ht, hp, segments, List.splitOn_eq_singleton (hsplit ▸ hn), ← hsplit]
    rfl

theorem gapless_of_mem_lineage (hgap : [] ∉ steps t) (hs : s ∈ lineage t) : [] ∉ steps s := by
  induction t using parent_induction with
  | nil => exact absurd hs List.not_mem_nil
  | child t ht ih =>
      rw [lineage_eq ht] at hs
      rcases List.mem_append.mp hs with hs | hs
      · refine ih (fun h => hgap ?_) hs
        rw [steps_eq ht hgap]
        exact List.mem_append_left _ h
      · rwa [List.mem_singleton.mp hs]

end Dotted

theorem Node.depth_eq (n : Node) : n.depth = (Dotted.steps n.path).length := by
  rw [Node.depth, Dotted.steps]
  split <;> rfl

namespace KeyTree

variable {t : KeyTree} {es : List (Text × Text)} {n c : Node} {p name : Text} {names : List Text}
  {k : Nat}

/-! ## Steps from parents to children -/

/-- The node that names lead to from the root, each of them to the child of that name. -/
def descend? (t : KeyTree) (names : List Text) : Option Node :=
  names.foldl (fun n name => n.bind fun n => t.child? n name) (t.node? root)

/-- A node that a number of steps from parent to child leads to, from the root. -/
inductive AtLevel (t : KeyTree) : Nat → Node → Prop
  | root {n : Node} (h : t.node? root = some n) : AtLevel t 0 n
  | child {k : Nat} {n c : Node} (h : AtLevel t k n) (hc : c ∈ t.children n) :
      AtLevel t (k + 1) c

/-- Names are fit to address the nodes of a tree. -/
structure Navigable (t : KeyTree) : Prop where
  name_ne_nil : ∀ i n, i ≠ root → t.node? i = some n → n.name ≠ []
  names_nodup : ∀ n ∈ t.nodes, ((t.children n).map Node.name).Nodup
  descend?_steps : ∀ n ∈ t.nodes, t.descend? (Dotted.steps n.path) = some n
  atLevel_iff : ∀ n ∈ t.nodes, ∀ k, t.AtLevel k n ↔ k = n.depth

theorem descend?_concat :
    t.descend? (names ++ [name]) = (t.descend? names).bind fun n => t.child? n name := by
  rw [descend?, List.foldl_append]
  rfl

theorem node?_root_build (es : List (Text × Text)) :
    (build es).node? root = some (nodeOf (pathsOf es) (valueOf es) []) := by
  obtain ⟨hps, -⟩ := build_eq_ofPaths es
  rw [node?_build, root, hps.getElem?_zero, Option.map_some]

theorem mem_nodes_of_node? {i : Nat} (h : t.node? i = some n) : n ∈ t.nodes :=
  List.mem_of_getElem? h

/-- Every name on the way down from the root is the name of a node below it. -/
theorem exists_of_descend? (h : (build es).descend? names = some n) :
    n ∈ (build es).nodes ∧
      ∀ name ∈ names, ∃ c ∈ (build es).nodes, c.path ≠ [] ∧ c.name = name := by
  induction names using List.reverseRecOn generalizing n with
  | nil => exact ⟨mem_nodes_of_node? h, List.forall_mem_nil _⟩
  | append_singleton names name ih =>
      rw [descend?_concat, Option.bind_eq_some_iff] at h
      obtain ⟨m, hm, hchild⟩ := h
      obtain ⟨hmem, hnames⟩ := ih hm
      obtain ⟨hc, hname⟩ := of_child? hchild
      obtain ⟨hn, hne, -⟩ := (mem_children_build hmem).mp hc
      refine ⟨hn, fun name' hname' => ?_⟩
      rcases List.mem_append.mp hname' with hname' | hname'
      · exact hnames name' hname'
      · exact ⟨n, hn, hne, hname.trans (List.mem_singleton.mp hname').symm⟩

theorem eq_root_iff {i : Nat} (h : (build es).node? i = some n) : i = root ↔ n.path = [] := by
  have hwell := wellFormed_build es
  constructor
  · rintro rfl
    rw [node?_root_build] at h
    exact (Option.some.inj h) ▸ rfl
  · intro hn
    have hroot := (hwell.find?_eq_some_iff [] root).mpr ⟨_, node?_root_build es, rfl⟩
    have hi := (hwell.find?_eq_some_iff [] i).mpr ⟨n, h, hn⟩
    exact Option.some.inj (hi.symm.trans hroot)

/-! ## Keys without empty segments -/

section

variable (hkeys : ∀ e ∈ es, [] ∉ Dotted.steps e.1)

include hkeys

theorem gapless_of_mem_pathsOf (hp : p ∈ pathsOf es) : [] ∉ Dotted.steps p := by
  rcases mem_pathsOf.mp hp with rfl | ⟨e, he, hp⟩
  · exact List.not_mem_nil
  · exact Dotted.gapless_of_mem_lineage (hkeys e he) hp

theorem gapless_of_mem_nodes (hn : n ∈ (build es).nodes) : [] ∉ Dotted.steps n.path :=
  gapless_of_mem_pathsOf hkeys (mem_nodes_build.mp hn).1

theorem steps_of_mem_children (hn : n ∈ (build es).nodes) (hc : c ∈ (build es).children n) :
    Dotted.steps c.path = Dotted.steps n.path ++ [c.name] := by
  obtain ⟨hmem, hne, hparent⟩ := (mem_children_build hn).mp hc
  have hname := (splits_of_mem_children hn hc).unique (Dotted.splits_self c.path)
  rw [Dotted.steps_eq hne (gapless_of_mem_nodes hkeys hmem), hparent, hname.2]

theorem name_ne_nil_of_mem_children (hn : n ∈ (build es).nodes)
    (hc : c ∈ (build es).children n) : c.name ≠ [] := by
  have hgap := gapless_of_mem_nodes hkeys ((mem_children_build hn).mp hc).1
  rw [steps_of_mem_children hkeys hn hc] at hgap
  intro hname
  exact hgap (by simp [hname])

theorem names_nodup_build (hn : n ∈ (build es).nodes) :
    (((build es).children n).map Node.name).Nodup := by
  rw [nodup_names_iff hn]
  intro _ c _ c' hc' hdot
  refine gapless_of_mem_nodes hkeys ((mem_children_build hn).mp hc').1 ?_
  rw [hdot, Dotted.steps, if_neg (List.cons_ne_nil _ _)]
  exact (Dotted.segments_cons_dot c.path).symm ▸ List.mem_cons_self

/-- By induction from parents to children, the segments of a path lead to its node. -/
theorem reached_build (hn : n ∈ (build es).nodes) (hpath : n.path = p) :
    (build es).descend? (Dotted.steps p) = some n ∧
      (build es).AtLevel (Dotted.steps p).length n := by
  induction p using Dotted.parent_induction generalizing n with
  | nil =>
      have hroot : (build es).node? root = some n := by
        rw [node?_root_build, (mem_nodes_build.mp hn).2, hpath]
      exact ⟨hroot, .root hroot⟩
  | child p hne ih =>
      subst hpath
      obtain ⟨m, hm, hparent, hchild⟩ := exists_parent_build hn hne
      obtain ⟨hdescend, hlevel⟩ := ih hm hparent
      rw [← hparent] at hdescend hlevel
      rw [steps_of_mem_children hkeys hm hchild]
      constructor
      · rw [descend?_concat, hdescend, Option.bind_some]
        exact (child?_eq_some_iff (names_nodup_build hkeys hm)).mpr ⟨hchild, rfl⟩
      · rw [List.length_append, List.length_singleton]
        exact .child hlevel hchild

theorem depth_of_atLevel (h : (build es).AtLevel k n) :
    n ∈ (build es).nodes ∧ k = n.depth := by
  induction h with
  | root h =>
      rw [Node.depth_eq, (eq_root_iff h).mp rfl]
      exact ⟨mem_nodes_of_node? h, rfl⟩
  | child _ hc ih =>
      obtain ⟨hn, rfl⟩ := ih
      rw [Node.depth_eq, Node.depth_eq, steps_of_mem_children hkeys hn hc, List.length_append]
      exact ⟨((mem_children_build hn).mp hc).1, rfl⟩

end

/-- Names are fit to address the nodes exactly if no key has an empty segment. -/
theorem navigable_build_iff (es : List (Text × Text)) :
    (build es).Navigable ↔ ∀ e ∈ es, [] ∉ Dotted.steps e.1 := by
  constructor
  · intro h e he hgap
    have hne : e.1 ≠ [] := fun hnil => List.not_mem_nil (hnil ▸ hgap)
    have hmem := mem_pathsOf.mpr (.inr ⟨e, he, Dotted.self_mem_lineage hne⟩)
    have hdescend := h.descend?_steps _ (nodeOf_mem_build hmem)
    -- The empty segment would be the name of a node on the way to the node of the key.
    obtain ⟨-, hnames⟩ := exists_of_descend? hdescend
    obtain ⟨c, hc, hpath, hname⟩ := hnames [] hgap
    obtain ⟨i, hi⟩ := List.mem_iff_getElem?.mp hc
    exact h.name_ne_nil i c (mt (eq_root_iff hi).mp hpath) hi hname
  · intro hkeys
    refine ⟨?_, fun n => names_nodup_build hkeys, ?_, ?_⟩
    · intro i c hi hc
      have hmem := mem_nodes_of_node? hc
      obtain ⟨n, hn, -, hchild⟩ := exists_parent_build hmem (mt (eq_root_iff hc).mpr hi)
      exact name_ne_nil_of_mem_children hkeys hn hchild
    · intro n hn
      exact (reached_build hkeys hn rfl).1
    · intro n hn k
      refine ⟨fun h => (depth_of_atLevel hkeys h).2, ?_⟩
      rintro rfl
      rw [Node.depth_eq]
      exact (reached_build hkeys hn rfl).2

end KeyTree

/-! ## Warnings of empty segments -/

namespace Analysis

variable {file : Text} {b : Bundle} {e : Entry}

theorem exists_keyIssue?_emptySegment (file : Text) :
    (∃ i, keyIssue? file e = some i ∧ i.rule = .emptySegment) ↔ [] ∈ Dotted.steps e.key := by
  have hany : (Dotted.segments e.key).any List.isEmpty = true ↔ [] ∈ Dotted.segments e.key := by
    simp
  rw [keyIssue?, Dotted.steps]
  by_cases hkey : e.key = []
  · simp [hkey, Issue.rule]
  · rw [if_neg hkey, if_neg hkey, ← hany]
    split <;> simp_all [Issue.rule]

theorem rule_of_valueIssue? {s : Signature} {i : Issue} (h : valueIssue? file b s = some i) :
    i.rule = .patternSyntax := by
  rw [valueIssue?] at h
  split at h
  · exact absurd h (Option.some_ne_none i).symm
  · exact Option.some.inj h ▸ rfl

theorem exists_emptySegment_iff (source : Source) (style : Style) (b : Bundle) :
    (∃ i ∈ (ofBundle source style b).issues, i.rule = .emptySegment) ↔
      ∃ e ∈ b.entries, [] ∈ Dotted.steps e.key := by
  simp only [← exists_keyIssue?_emptySegment source.path.text]
  constructor
  · rintro ⟨i, hi, hrule⟩
    rcases List.mem_append.mp hi with hi | hi
    · obtain ⟨e, he, hissue⟩ := List.mem_filterMap.mp hi
      exact ⟨e, he, i, hissue, hrule⟩
    · obtain ⟨s, -, hissue⟩ := List.mem_filterMap.mp hi
      exact absurd (hrule.symm.trans (rule_of_valueIssue? hissue)) Rule.noConfusion
  · rintro ⟨e, he, i, hissue, hrule⟩
    exact ⟨i, List.mem_append_left _ (List.mem_filterMap.mpr ⟨e, he, hissue⟩), hrule⟩

/-- An analysis warns of no empty segment exactly if the tree of the bundle can be navigated
by names. -/
theorem navigable_iff (source : Source) (style : Style) (b : Bundle) :
    (∀ i ∈ (ofBundle source style b).issues, i.rule ≠ .emptySegment) ↔
      (ofBundle source style b).tree.Navigable := by
  have hkeys : (∀ e ∈ b.pairs, [] ∉ Dotted.steps e.1) ↔
      ∀ e ∈ b.entries, [] ∉ Dotted.steps e.key := List.forall_mem_map
  have hissues := not_congr (exists_emptySegment_iff source style b)
  simp only [not_exists, not_and] at hissues
  exact (hissues.trans hkeys.symm).trans (KeyTree.navigable_build_iff b.pairs).symm

end Analysis
end ResourceBundles
