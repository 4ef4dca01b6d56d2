import ResourceBundles.Proofs.KeyTree.DepthFirst

/-!
# Names of children

A node is told from its siblings by its path.  Its name is only the end of the path, but
together with the path of the parent it gives the path back, except below the root: there
a text without dots and the same text behind a dot are two paths with one name.
-/

namespace ResourceBundles

namespace Dotted

variable {p p' above above' n n' : Text}

theorem Splits.unique (h : Splits p above n) (h' : Splits p above' n') :
    above = above' ∧ n = n' := by
  obtain ⟨hn, rfl | ⟨rfl, rfl⟩⟩ := h
  · obtain ⟨hn', h' | ⟨rfl, rfl⟩⟩ := h'
    · have hcut := cutLast_append above hn
      rw [h', cutLast_append above' hn'] at hcut
      simpa [eq_comm] using hcut
    · exact absurd (by simp) hn'
  · obtain ⟨-, rfl | ⟨rfl, rfl⟩⟩ := h'
    · exact absurd (by simp) hn
    · exact ⟨rfl, rfl⟩

/-- Two paths with one parent have the same name if they are equal, or if they lie below
the empty path and differ by a dot in front. -/
theorem Splits.name_eq_iff (h : Splits p above n) (h' : Splits p' above n') :
    n = n' ↔ p = p' ∨ above = [] ∧ (p = '.' :: p' ∨ p' = '.' :: p) := by
  constructor
  · rintro rfl
    obtain ⟨-, rfl | ⟨rfl, rfl⟩⟩ := h
    · obtain ⟨-, rfl | ⟨rfl, rfl⟩⟩ := h'
      · exact .inl rfl
      · exact .inr ⟨rfl, .inl rfl⟩
    · obtain ⟨-, rfl | ⟨-, rfl⟩⟩ := h'
      · exact .inr ⟨rfl, .inr rfl⟩
      · exact .inl rfl
  · have hdot : ∀ {p p' n n' : Text}, Splits p [] n → Splits p' [] n' → p = '.' :: p' → n = n' := by
      rintro p p' n n' ⟨hn, hp⟩ ⟨hn', hp'⟩ rfl
      have hp : p' = n := hp.elim (fun hp => (List.cons.inj hp).2)
        fun hp => absurd (hp.2 ▸ List.mem_cons_self) hn
      subst hp
      exact hp'.elim (fun hp' => absurd (hp' ▸ List.mem_cons_self) hn) And.right
    rintro (rfl | ⟨rfl, hp | hp⟩)
    · exact (h.unique h').2
    · exact hdot h h' hp
    · exact (hdot h' h hp).symm

end Dotted

namespace KeyTree

variable {es : List (Text × Text)} {n c c' : Node} {name : Text}

/-! ## Children of a built tree -/

theorem mem_nodes_build :
    n ∈ (build es).nodes ↔
      n.path ∈ pathsOf es ∧ n = nodeOf (pathsOf es) (valueOf es) n.path := by
  obtain ⟨-, hbuild⟩ := build_eq_ofPaths es
  rw [hbuild, ofPaths, List.mem_map]
  constructor
  · rintro ⟨p, hp, rfl⟩
    exact ⟨hp, rfl⟩
  · rintro ⟨hp, hn⟩
    exact ⟨n.path, hp, hn.symm⟩

theorem nodeOf_mem_build {p : Text} (hp : p ∈ pathsOf es) :
    nodeOf (pathsOf es) (valueOf es) p ∈ (build es).nodes :=
  mem_nodes_build.mpr ⟨hp, rfl⟩

/-- The children of a node are the nodes of the paths right below its own, in their order. -/
theorem children_build (hn : n ∈ (build es).nodes) :
    (build es).children n =
      ((pathsOf es).filter fun q => q ≠ [] ∧ Dotted.parent q = n.path).map
        (nodeOf (pathsOf es) (valueOf es)) := by
  have hchildren : n.children = childIds (pathsOf es) n.path := by
    rw [(mem_nodes_build.mp hn).2]
    rfl
  have hnode : (build es).node? =
      Option.map (nodeOf (pathsOf es) (valueOf es)) ∘ fun i => (pathsOf es)[i]? :=
    funext (node?_build es)
  rw [children, hchildren, hnode, ← List.filterMap_map, map_getElem?_childIds, List.filterMap_map,
    ← List.filterMap_eq_map]
  rfl

theorem mem_children_build (hn : n ∈ (build es).nodes) :
    c ∈ (build es).children n ↔
      c ∈ (build es).nodes ∧ c.path ≠ [] ∧ Dotted.parent c.path = n.path := by
  rw [children_build hn, List.mem_map]
  constructor
  · rintro ⟨q, hq, rfl⟩
    obtain ⟨hmem, hbelow⟩ := List.mem_filter.mp hq
    exact ⟨nodeOf_mem_build hmem, of_decide_eq_true hbelow⟩
  · rintro ⟨hc, hbelow⟩
    obtain ⟨hmem, hnode⟩ := mem_nodes_build.mp hc
    exact ⟨c.path, List.mem_filter.mpr ⟨hmem, decide_eq_true hbelow⟩, hnode.symm⟩

theorem exists_parent_build (hc : c ∈ (build es).nodes) (hne : c.path ≠ []) :
    ∃ n ∈ (build es).nodes, n.path = Dotted.parent c.path ∧ c ∈ (build es).children n := by
  obtain ⟨hps, -⟩ := build_eq_ofPaths es
  have hn := nodeOf_mem_build (hps.parent_mem (mem_nodes_build.mp hc).1)
  exact ⟨_, hn, rfl, (mem_children_build hn).mpr ⟨hc, hne, rfl⟩⟩

theorem splits_of_mem_children (hn : n ∈ (build es).nodes) (hc : c ∈ (build es).children n) :
    Dotted.Splits c.path n.path c.name := by
  obtain ⟨hc, -, hparent⟩ := (mem_children_build hn).mp hc
  have hname : c.name = Dotted.lastSegment c.path := by
    rw [(mem_nodes_build.mp hc).2]
    rfl
  rw [hname, ← hparent]
  exact Dotted.splits_self c.path

theorem nodup_paths_build (es : List (Text × Text)) : ((build es).nodes.map Node.path).Nodup :=
  (wellFormed_build es).paths_nodup

theorem eq_of_path_eq (hc : c ∈ (build es).nodes) (hc' : c' ∈ (build es).nodes)
    (h : c.path = c'.path) : c = c' :=
  List.inj_on_of_nodup_map (nodup_paths_build es) hc hc' h

theorem nodup_children_build (hn : n ∈ (build es).nodes) : ((build es).children n).Nodup := by
  obtain ⟨hps, -⟩ := build_eq_ofPaths es
  refine List.Nodup.of_map Node.path ?_
  rw [children_build hn, List.map_map]
  exact (List.map_id _).symm ▸ hps.nodup.filter _

/-! ## Siblings with one name -/

theorem name_eq_iff (hn : n ∈ (build es).nodes) (hc : c ∈ (build es).children n)
    (hc' : c' ∈ (build es).children n) :
    c.name = c'.name ↔
      c = c' ∨ n.path = [] ∧ (c.path = '.' :: c'.path ∨ c'.path = '.' :: c.path) := by
  have hpath : c.path = c'.path ↔ c = c' :=
    ⟨eq_of_path_eq ((mem_children_build hn).mp hc).1 ((mem_children_build hn).mp hc').1,
      congrArg Node.path⟩
  rw [← hpath]
  exact (splits_of_mem_children hn hc).name_eq_iff (splits_of_mem_children hn hc')

theorem nodup_names_iff (hn : n ∈ (build es).nodes) :
    (((build es).children n).map Node.name).Nodup ↔
      (n.path = [] → ∀ c ∈ (build es).children n, ∀ c' ∈ (build es).children n,
        c'.path ≠ '.' :: c.path) := by
  rw [List.nodup_map_iff_inj_on (nodup_children_build hn)]
  constructor
  · intro h hroot c hc c' hc' hdot
    obtain rfl := h c hc c' hc' ((name_eq_iff hn hc hc').mpr (.inr ⟨hroot, .inr hdot⟩))
    exact List.cons_ne_self _ _ hdot.symm
  · intro h c hc c' hc' hname
    rcases (name_eq_iff hn hc hc').mp hname with heq | ⟨hroot, hdot | hdot⟩
    · exact heq
    · exact absurd hdot (h hroot c' hc' c hc)
    · exact absurd hdot (h hroot c hc c' hc')

theorem of_child? {t : KeyTree} (h : t.child? n name = some c) :
    c ∈ t.children n ∧ c.name = name := by
  rw [child?] at h
  have hname := List.find?_some h
  exact ⟨List.mem_of_find?_eq_some h, of_decide_eq_true hname⟩

/-- Where the names of the children are distinct, a name leads to the only child that has it. -/
theorem child?_eq_some_iff {t : KeyTree} (h : ((t.children n).map Node.name).Nodup) :
    t.child? n name = some c ↔ c ∈ t.children n ∧ c.name = name := by
  refine ⟨of_child?, ?_⟩
  rintro ⟨hc, rfl⟩
  have hsome : (t.child? n c.name).isSome := List.find?_isSome.mpr ⟨c, hc, decide_eq_true rfl⟩
  obtain ⟨found, hfound⟩ := Option.isSome_iff_exists.mp hsome
  obtain ⟨hmem, hname⟩ := of_child? hfound
  rw [hfound, List.inj_on_of_nodup_map h hmem hc hname]

/-- The children of a node have distinct names, so that each of them is found by its name,
unless the node is the root and the path of one child is that of another behind a dot. -/
theorem children_distinguished (es : List (Text × Text)) (hn : n ∈ (build es).nodes) :
    ((((build es).children n).map Node.name).Nodup ↔
        (n.path = [] → ∀ c ∈ (build es).children n, ∀ c' ∈ (build es).children n,
          c'.path ≠ '.' :: c.path)) ∧
      ((((build es).children n).map Node.name).Nodup →
        ∀ name c, (build es).child? n name = some c ↔
          c ∈ (build es).children n ∧ c.name = name) :=
  ⟨nodup_names_iff hn, fun h _ _ => child?_eq_some_iff h⟩

/-- Dots in front, at the end and next to each other do no harm as long as no two children of
the root differ by a dot in front. -/
theorem children_distinguished_dotted :
    (build [("a..x", "1"), (".x", "2"), ("a.x", "3")]).child? ⟨[], [], none, [1, 4]⟩ "x" =
      some ⟨"x", ".x", some "2", []⟩ := by
  have hroot : ⟨[], [], none, [1, 4]⟩ ∈
      (build [("a..x", "1"), (".x", "2"), ("a.x", "3")]).nodes := by decide +kernel
  obtain ⟨hiff, hchild⟩ := children_distinguished _ hroot
  exact (hchild (hiff.mpr (by decide +kernel)) _ _).mpr (by decide +kernel)

/-- A dot in front gives the root two children with one name, of which only the first is
found. -/
theorem names_collide_below_root :
    let t := build [("x", "1"), (".x", "2")]
    let r : Node := ⟨[], [], none, [1, 2]⟩
    r ∈ t.nodes ∧ (t.children r).map Node.name = (["x", "x"] : List Text) ∧
      ¬((t.children r).map Node.name).Nodup ∧
      t.child? r "x" = some ⟨"x", "x", some "1", []⟩ := by
  decide +kernel

end KeyTree
end ResourceBundles
