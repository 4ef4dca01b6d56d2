import ResourceBundles.Proofs.KeyTree.Views
import ResourceBundles.Proofs.KeyTree.Walk
import ResourceBundles.Report.Tree

/-!
# Rows of drawn trees

A drawing has one row for every node below the root, in the order of the walk through the
tree.  A row is told by its node and the nodes on the way down to it: these stand in front
as stems, and the value of the node is all that its signature depends on.  However wide
texts are shown, no label is wider than the first column, and so all values begin at the
same distance from the left margin.
-/

namespace ResourceBundles

namespace KeyTree

variable {t : KeyTree} {ids ids' : List Nat} {i j k : Nat}

/-! ## Ways down -/

/-- The nodes on the way from the root down to a node, without the root. -/
inductive Branch (t : KeyTree) : List Nat → Nat → Prop
  | root : Branch t [] root
  | child {ids : List Nat} {j i : Nat} (hj : Branch t ids j) (hi : i ∈ t.childrenOf j) :
      Branch t (ids ++ [i]) i

/-- Whether a node is the last child of its parent. -/
def isLastChild (t : KeyTree) (i : Nat) : Bool :=
  t.nodes.any fun n => n.children.getLast? = some i

namespace WellFormed

theorem ne_root_of_child (h : t.WellFormed) (hi : i ∈ t.childrenOf j) : i ≠ root :=
  Nat.ne_of_gt (Nat.zero_lt_of_lt (h.child_lt j i hi).1)

theorem parent_unique (h : t.WellFormed) (hj : i ∈ t.childrenOf j) (hk : i ∈ t.childrenOf k) :
    j = k := by
  obtain ⟨parent, -, -, hother⟩ := h.exists_parent (h.ne_root_of_child hj) (h.child_lt j i hj).2
  have honly : ∀ l, i ∈ t.childrenOf l → l = parent := fun l hl =>
    Decidable.byContradiction fun hne => hother l hne hl
  rw [honly j hj, honly k hk]

theorem branch_unique (h : t.WellFormed) (hids : Branch t ids i) (hids' : Branch t ids' i) :
    ids = ids' := by
  induction hids generalizing ids' with
  | root =>
      generalize hroot : root = i at hids'
      cases hids' with
      | root => rfl
      | child _ hi => exact absurd hroot.symm (h.ne_root_of_child hi)
  | @child ids j i _ hi ih =>
      cases hids' with
      | root => exact absurd rfl (h.ne_root_of_child hi)
      | child hj' hi' =>
          obtain rfl := h.parent_unique hi hi'
          rw [ih hj']

theorem isLastChild_iff (h : t.WellFormed) (hi : i ∈ t.childrenOf j) :
    t.isLastChild i = true ↔ (t.childrenOf j).getLast? = some i := by
  simp only [isLastChild, List.any_eq_true, decide_eq_true_eq]
  constructor
  · rintro ⟨n, hn, hlast⟩
    obtain ⟨k, hk⟩ := List.mem_iff_getElem?.mp hn
    have hchildren : t.childrenOf k = n.children := childrenOf_eq hk
    have hik : i ∈ t.childrenOf k := hchildren ▸ List.mem_of_getLast? hlast
    rw [h.parent_unique hi hik, hchildren, hlast]
  · intro hlast
    have hlt : j < t.size := lt_size_of_childrenOf_ne_nil (List.ne_nil_of_mem hi)
    refine ⟨t.nodes[j], List.getElem_mem hlt, ?_⟩
    rw [← hlast, childrenOf_eq (List.getElem?_eq_getElem hlt)]

/-- Among the children of a node, the last one is the one that none stands behind. -/
theorem isLastChild_of_suffix (h : t.WellFormed) (hids : i :: ids <:+ t.childrenOf j) :
    t.isLastChild i = ids.isEmpty := by
  obtain ⟨front, hfront⟩ := hids
  have hi : i ∈ t.childrenOf j := by simp [← hfront]
  rw [Bool.eq_iff_iff, h.isLastChild_iff hi, ← hfront, List.getLast?_append_of_ne_nil _ (by simp)]
  cases hlast : ids.getLast? with
  | none =>
      obtain rfl := List.getLast?_eq_none_iff.mp hlast
      simp
  | some k =>
      -- A child stands behind its number only once.
      have hk : k ∈ ids := List.mem_of_getLast? hlast
      have hlt : i < k := by
        have hincreasing := h.children_increasing j
        rw [← hfront] at hincreasing
        exact (List.pairwise_cons.mp (List.pairwise_append.mp hincreasing).2.1).1 k hk
      have hne : ids ≠ [] := List.ne_nil_of_mem hk
      simp [List.getLast?_cons, hlast, hne, Nat.ne_of_gt hlt]

end WellFormed

/-! ## Signatures of nodes -/

/-- A signature is found by the path of its leaf. -/
theorem find?_signatures_build (es : List (Text × Text)) (style : Style) (p : Text) :
    ((build es).signatures style).find? (fun s => s.path = p) =
      (valueOf es p).map fun v => ⟨p, v, style.resolve v⟩ := by
  have hmem : ∀ q v arguments, ⟨q, v, arguments⟩ ∈ (build es).signatures style ↔
      valueOf es q = some v ∧ arguments = style.resolve v := by
    intro q v arguments
    rw [signatures, List.mem_map]
    constructor
    · rintro ⟨⟨q, v⟩, hentry, hs⟩
      obtain ⟨rfl, rfl, rfl⟩ := Signature.mk.inj hs
      exact ⟨mem_entries_build.mp hentry, rfl⟩
    · rintro ⟨hvalue, rfl⟩
      exact ⟨(q, v), mem_entries_build.mpr hvalue, rfl⟩
  cases hfind : ((build es).signatures style).find? (fun s => s.path = p) with
  | none =>
      rw [List.find?_eq_none] at hfind
      cases hv : valueOf es p with
      | none => rfl
      | some v => exact absurd (by simp) (hfind _ ((hmem p v _).mpr ⟨hv, rfl⟩))
  | some s =>
      obtain ⟨q, v, arguments⟩ := s
      obtain rfl : q = p := by simpa using List.find?_some hfind
      obtain ⟨hvalue, rfl⟩ := (hmem q v arguments).mp (List.mem_of_find?_eq_some hfind)
      rw [hvalue, Option.map_some]

end KeyTree

namespace Report

open KeyTree (Branch DepthFirst)

variable {t : KeyTree} {above ids xs : List Nat} {j : Nat}

/-! ## Rows -/

def stems (t : KeyTree) (above : List Nat) : Text := above.flatMap fun i => stem (t.isLastChild i)

theorem stems_concat (t : KeyTree) (above : List Nat) (i : Nat) :
    stems t (above ++ [i]) = stems t above ++ stem (t.isLastChild i) := by
  simp [stems]

/-- The row of a node, given the nodes above it. -/
inductive Draws (t : KeyTree) (style : Style) (above : List Nat) (i : Nat) (n : Node) : Row → Prop
  | inner (hn : n.value = none) :
      Draws t style above i n ⟨stems t above ++ connector (t.isLastChild i) ++ n.name, none⟩
  | resolved {v : Text} {types : List TypeSet} (hn : n.value = some v)
      (hv : style.resolve v = .ok types) :
      Draws t style above i n
        ⟨stems t above ++ connector (t.isLastChild i) ++ n.name ++ argumentList types,
          some (.value v)⟩
  | failed {v : Text} {e : PatternError} (hn : n.value = some v) (hv : style.resolve v = .error e) :
      Draws t style above i n
        ⟨stems t above ++ connector (t.isLastChild i) ++ n.name, some (.failure e)⟩

theorem draws_row {style : Style} {i : Nat} {n : Node} {s : Option Signature}
    (hs : s = n.value.map fun v => ⟨n.path, v, style.resolve v⟩) :
    Draws t style above i n (row (stems t above) (t.isLastChild i) n.name s) := by
  cases hn : n.value with
  | none => simpa [row, hs, hn, labelEnd] using Draws.inner (i := i) hn
  | some v =>
      cases hv : style.resolve v with
      | ok types =>
          simpa [row, hs, hn, hv, labelEnd, detailOf] using Draws.resolved (i := i) hn hv
      | error e => simpa [row, hs, hn, hv, labelEnd, detailOf] using Draws.failed (i := i) hn hv

/-- Below a node the rows come in depth-first order, each behind the stems of the nodes
above it. -/
theorem forall₂_rowsBelow (h : t.WellFormed) (hxs : DepthFirst t ids xs)
    (hj : Branch t above j) (hids : ids <:+ t.childrenOf j) (signature? : Text → Option Signature) :
    List.Forall₂
      (fun i r => ∃ n above, t.node? i = some n ∧ Branch t (above ++ [i]) i ∧
        r = row (stems t above) (t.isLastChild i) n.name (signature? n.path))
      xs (rowsBelow signature? (stems t above) (ids.map (t.viewAt t.size))) := by
  induction hxs generalizing above j with
  | nil => exact .nil
  | @cons i ids below behind _ _ ihbelow ihbehind =>
      have hi : i ∈ t.childrenOf j := hids.subset List.mem_cons_self
      have hlt : i < t.nodes.length := (h.child_lt j i hi).2
      have hn : t.node? i = some t.nodes[i] := List.getElem?_eq_getElem hlt
      have hbranch : Branch t (above ++ [i]) i := .child hj hi
      have hlast : (ids.map (t.viewAt t.size)).isEmpty = t.isLastChild i := by
        rw [h.isLastChild_of_suffix hids, List.isEmpty_map]
      rw [List.map_cons, rowsBelow, h.viewAt_size hn, rowsOf, hlast, ← KeyTree.childrenOf_eq hn,
        ← stems_concat]
      refine List.rel_append (.cons ⟨_, above, hn, hbranch, rfl⟩ ?_) ?_
      · exact ihbelow hbranch List.suffix_rfl
      · exact ihbehind hj ((List.suffix_cons i ids).trans hids)

/-! ## Columns -/

/-- The text of a row.  A detail stands behind `column` columns, the last two of them blank. -/
inductive ShownAt (width : Text → Nat) (column : Nat) : Row → Text → Prop
  | bare {label : Text} : ShownAt width column ⟨label, none⟩ label
  | detailed {label : Text} {d : RowDetail} {padding : Nat}
      (h : width label + padding + 2 = column) :
      ShownAt width column ⟨label, some d⟩
        (label ++ List.replicate (padding + 2) ' ' ++ d.text)

theorem width_le_labelWidth (width : Text → Nat) {rows : List Row} {r : Row} (hr : r ∈ rows) :
    width r.label ≤ labelWidth width rows := by
  apply le_of_forall_lt
  intro n hn
  exact Lists.lt_foldl_max.mpr (.inr ⟨_, List.mem_map_of_mem hr, hn⟩)

theorem shownAt_rowText (width : Text → Nat) {column : Nat} {r : Row}
    (hr : width r.label ≤ column) : ShownAt width (column + 2) r (rowText width column r) := by
  obtain ⟨label, detail⟩ := r
  cases detail with
  | none => exact .bare
  | some d =>
      have hpadding : width label + (column - width label) + 2 = column + 2 := by
        rw [Nat.add_sub_of_le hr]
      simpa [rowText, List.replicate_add] using ShownAt.detailed (d := d) hpadding

/-- Where a blank adds a column, a detail begins at the given column. -/
theorem ShownAt.exists_front {width : Text → Nat} (hblank : ∀ t, width (t ++ [' ']) = width t + 1)
    {column : Nat} {r : Row} {text : Text} (h : ShownAt width column r text) {d : RowDetail}
    (hd : r.detail = some d) : ∃ front, text = front ++ d.text ∧ width front = column := by
  have hpad : ∀ (t : Text) (n : Nat), width (t ++ List.replicate n ' ') = width t + n := by
    intro t n
    induction n with
    | zero => rw [List.replicate_zero, List.append_nil, Nat.add_zero]
    | succ n ih => rw [List.replicate_succ', ← List.append_assoc, hblank, ih, Nat.add_assoc]
  cases h with
  | bare => exact absurd hd (Option.some_ne_none d).symm
  | @detailed label _ padding h =>
      obtain rfl := Option.some.inj hd
      exact ⟨_, rfl, (hpad label (padding + 2)).trans h⟩

end Report

namespace Analysis

open KeyTree (Branch)
open Report (Draws ShownAt labelWidth)

theorem forall₂_rows (source : Source) (style : Style) (b : Bundle) :
    let a := ofBundle source style b
    List.Forall₂
      (fun i r => ∃ n above, a.tree.node? i = some n ∧ Branch a.tree (above ++ [i]) i ∧
        Draws a.tree style above i n r)
      a.tree.descendantIds a.rows := by
  intro a
  have hwell : a.tree.WellFormed := KeyTree.wellFormed_build b.pairs
  obtain ⟨children, hroot⟩ := hwell.root_node
  have hview : a.tree.view.children = (a.tree.childrenOf KeyTree.root).map
      (a.tree.viewAt a.tree.size) := by
    rw [KeyTree.view, hwell.viewAt_size hroot, KeyTree.childrenOf_eq hroot]
    rfl
  have hrows := Report.forall₂_rowsBelow hwell hwell.depthFirst_descendantIds .root
    List.suffix_rfl a.signature?
  rw [rows, hview]
  refine hrows.imp fun i r => ?_
  rintro ⟨n, above, hn, hbranch, rfl⟩
  refine ⟨n, above, hn, hbranch, Report.draws_row ?_⟩
  have hvalue := KeyTree.value_eq_of_mem_build (List.mem_of_getElem? hn)
  rw [hvalue]
  exact KeyTree.find?_signatures_build b.pairs style n.path

/-- The drawing of a bundle has the rows of the nodes below the root, in their order.  A row
is told by its node and the nodes above it, and all details stand in one column. -/
theorem drawing_ofBundle (source : Source) (style : Style) (b : Bundle) :
    let a := ofBundle source style b
    List.Forall₂
      (fun i r => ∃ n above, a.tree.node? i = some n ∧ Branch a.tree (above ++ [i]) i ∧
        Draws a.tree style above i n r)
      a.tree.descendantIds a.rows ∧
    (KeyTree.root :: a.tree.descendantIds).Perm (List.range a.tree.size) ∧
    a.tree.descendantIds.map a.tree.node? = a.tree.descendants.map some ∧
    (∀ i ids ids', Branch a.tree ids i → Branch a.tree ids' i → ids = ids') ∧
    (∀ j, ∀ i ∈ a.tree.childrenOf j,
      (a.tree.isLastChild i = true ↔ (a.tree.childrenOf j).getLast? = some i)) ∧
    ∀ width : Text → Nat,
      (∀ r ∈ a.rows, width r.label ≤ labelWidth width a.rows) ∧
      ∃ texts, Report.drawing width a.rows = texts.flatMap Text.line ∧
        List.Forall₂ (ShownAt width (labelWidth width a.rows + 2)) a.rows texts ∧
        ((∀ t, width (t ++ [' ']) = width t + 1) →
          List.Forall₂
            (fun r text => ∀ d, r.detail = some d →
              ∃ front, text = front ++ d.text ∧ width front = labelWidth width a.rows + 2)
            a.rows texts) := by
  intro a
  have hwell : a.tree.WellFormed := KeyTree.wellFormed_build b.pairs
  refine ⟨forall₂_rows source style b, hwell.perm_range hwell.depthFirst_descendantIds,
    hwell.map_node?_descendantIds, fun _ _ _ => hwell.branch_unique,
    fun _ _ => hwell.isLastChild_iff, fun width => ?_⟩
  have hwidth : ∀ r ∈ a.rows, width r.label ≤ labelWidth width a.rows :=
    fun _ => Report.width_le_labelWidth width
  have hshown : List.Forall₂ (ShownAt width (labelWidth width a.rows + 2)) a.rows
      (a.rows.map (Report.rowText width (labelWidth width a.rows))) := by
    rw [List.forall₂_map_right_iff, List.forall₂_same]
    exact fun r hr => Report.shownAt_rowText width (hwidth r hr)
  refine ⟨hwidth, _, ?_, hshown, fun hblank => ?_⟩
  · rw [Report.drawing, List.flatMap_map]
  · exact hshown.imp fun r text h d => h.exists_front hblank

example :
    (ofBundle ⟨"m", ⟨"m.properties"⟩⟩ .pattern
      (.ofEntries [⟨"a.x", "\x7b1\x7d", 1⟩, ⟨"b", "\x7bb\x7d", 2⟩, ⟨"a.x.y", "y", 3⟩])).rows =
      [⟨"├── a", none⟩, ⟨"│   └── x(any, any)", some (.value "\x7b1\x7d")⟩,
        ⟨"│       └── y()", some (.value "y")⟩,
        ⟨"└── b", some (.failure (.invalidIndex "b"))⟩] := by
  decide +kernel

end Analysis
end ResourceBundles
