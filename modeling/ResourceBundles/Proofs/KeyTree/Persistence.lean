import ResourceBundles.Proofs.KeyTree.DepthFirst

/-!
# Trees that keep their nodes

More entries never disturb what a tree holds.  In one step, and so by induction in any number
of steps, every node keeps its number, its name and its path, and new children come behind its
old ones.  A node changes its value only if one of the new entries has its path.
-/

namespace ResourceBundles

/-- What a node becomes in a tree that had `size` nodes before: name and path stay, and the
old children are followed by new nodes only. -/
structure Node.Grows (size : Nat) (n m : Node) : Prop where
  name_eq : m.name = n.name
  path_eq : m.path = n.path
  children : ∃ new, m.children = n.children ++ new ∧ ∀ k ∈ new, size ≤ k

theorem Node.Grows.refl (size : Nat) (n : Node) : n.Grows size n :=
  ⟨rfl, rfl, [], (List.append_nil _).symm, List.forall_mem_nil _⟩

namespace KeyTree

/-- Every node of `t` is a node of `u` under the same number, and has grown at most. -/
def Keeps (t u : KeyTree) : Prop :=
  ∀ i n, t.node? i = some n → ∃ m, u.node? i = some m ∧ n.Grows t.size m

variable {t u w : KeyTree} {es fs : List (Text × Text)} {n : Node} {p : Text} {i : Nat}

theorem node?_lt (h : t.node? i = some n) : i < t.size := (List.getElem?_eq_some_iff.mp h).1

namespace Keeps

theorem refl (t : KeyTree) : t.Keeps t := fun _ n hn => ⟨n, hn, .refl t.size n⟩

theorem size_le (h : t.Keeps u) : t.size ≤ u.size := by
  refine Nat.le_of_not_lt fun hlt => ?_
  have hn : t.node? u.size = some t.nodes[u.size] := List.getElem?_eq_getElem hlt
  obtain ⟨m, hm, -⟩ := h u.size _ hn
  exact Nat.lt_irrefl _ (node?_lt hm)

theorem trans (h : t.Keeps u) (h' : u.Keeps w) : t.Keeps w := by
  intro i n hn
  obtain ⟨m, hm, hname, hpath, new, hchildren, hnew⟩ := h i n hn
  obtain ⟨k, hk, hname', hpath', new', hchildren', hnew'⟩ := h' i m hm
  refine ⟨k, hk, hname'.trans hname, hpath'.trans hpath, new ++ new', ?_, ?_⟩
  · rw [hchildren', hchildren, List.append_assoc]
  · intro c hc
    rcases List.mem_append.mp hc with hc | hc
    · exact hnew c hc
    · exact Nat.le_trans h.size_le (hnew' c hc)

end Keeps

/-! ## One more entry -/

theorem keeps_addChild (t : KeyTree) (parent : Nat) (path : Text) (value : Option Text) :
    t.Keeps (t.addChild parent path value).1 := by
  intro i n hn
  have hi : i < t.nodes.length := node?_lt hn
  rw [addChild, node?, List.getElem?_modify, List.getElem?_append_left hi]
  rw [node?] at hn
  by_cases hparent : parent = i
  · refine ⟨{ n with children := n.children ++ [t.nodes.length] }, by simp [hn, hparent],
      rfl, rfl, [t.nodes.length], rfl, ?_⟩
    exact fun k hk => (List.mem_singleton.mp hk).ge
  · exact ⟨n, by simp [hn, hparent], .refl t.size n⟩

theorem keeps_addChain (t : KeyTree) (parent : Nat) (key value : Text) (paths : List Text) :
    t.Keeps (t.addChain parent key value paths) := by
  induction paths generalizing t parent with
  | nil => exact .refl t
  | cons path rest ih => exact (keeps_addChild t parent path _).trans (ih _ _)

theorem keeps_insert (t : KeyTree) (key value : Text) : t.Keeps (t.insert key value) := by
  rw [insert]
  split
  · exact .refl t
  split
  next id _ =>
    intro i n hn
    rw [node?] at hn
    rw [node?, List.getElem?_modify, hn]
    by_cases hid : id = i
    · exact ⟨{ n with value := some value }, by simp [hid], rfl, rfl, [],
        (List.append_nil _).symm, List.forall_mem_nil _⟩
    · exact ⟨n, by simp [hid], .refl t.size n⟩
  · exact keeps_addChain t _ key value _

/-! ## Any number of entries -/

theorem keeps_build_append (es fs : List (Text × Text)) :
    (build es).Keeps (build (es ++ fs)) := by
  induction fs using List.reverseRecOn with
  | nil =>
      rw [List.append_nil]
      exact .refl _
  | append_singleton fs e ih =>
      rw [← List.append_assoc, build_concat]
      exact ih.trans (keeps_insert _ e.1 e.2)

theorem valueOf_append (es fs : List (Text × Text)) (p : Text) :
    valueOf (es ++ fs) p = (valueOf fs p).or (valueOf es p) := by
  rw [valueOf, valueOf, valueOf]
  split
  · rfl
  · rw [List.filter_append, List.getLast?_append, Option.map_or]

/-- More entries keep every node under its number, with its name, its path and its children in
front of new ones, and its value is the last one that they have for its path, if any. -/
theorem node?_build_append (es fs : List (Text × Text)) (h : (build es).node? i = some n) :
    ∃ m, (build (es ++ fs)).node? i = some m ∧ n.Grows (build es).size m ∧
      m.value = (valueOf fs n.path).or n.value := by
  obtain ⟨m, hm, hgrows⟩ := keeps_build_append es fs i n h
  refine ⟨m, hm, hgrows, ?_⟩
  have hn := value_eq_of_mem_build (List.mem_of_getElem? h)
  rw [value_eq_of_mem_build (List.mem_of_getElem? hm), hgrows.path_eq, valueOf_append, ← hn]

/-- A branch takes a value and a second child, while its first child changes its value twice. -/
theorem node?_build_promoted :
    let es : List (Text × Text) := [("a.b", "1")]
    let fs : List (Text × Text) := [("a.c", "2"), ("a.b", "3"), ("a", "4"), ("a.b", "5")]
    (build es).node? 1 = some ⟨"a", "a", none, [2]⟩ ∧
      ∃ m, (build (es ++ fs)).node? 1 = some m ∧ Node.Grows 3 ⟨"a", "a", none, [2]⟩ m ∧
        m.value = some ("4" : Text) := by
  intro es fs
  have hnode : (build es).node? 1 = some ⟨"a", "a", none, [2]⟩ := by decide +kernel
  obtain ⟨m, hm, hgrows, hvalue⟩ := node?_build_append es fs hnode
  have hsize : (build es).size = 3 := by decide +kernel
  exact ⟨hnode, m, hm, hsize ▸ hgrows, hvalue.trans (by decide +kernel)⟩

end KeyTree
end ResourceBundles
