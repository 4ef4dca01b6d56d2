import ResourceBundles.Proofs.KeyTree.Collapsing
import ResourceBundles.Proofs.KeyTree.DepthFirst
import Mathlib.Data.List.Forall2

/-!
# Trees that agree but at one path

Entries with the same keys make trees of the same shape, whatever their values are.  If the
entries differ in the value of one key only, then so do the nodes, and the walk through both
trees comes to the same numbers in the same order.
-/

namespace ResourceBundles

/-- Nodes at the same place that are the same, unless their path is `k`: then their values
may differ, and both or none of them is a leaf. -/
structure Node.AgreeBut (k : Text) (n n' : Node) : Prop where
  name_eq : n.name = n'.name
  path_eq : n.path = n'.path
  children_eq : n.children = n'.children
  isSome_value_eq : n.value.isSome = n'.value.isSome
  eq_of_ne : n.path ≠ k → n = n'

/-- A key with its value, and the same key, which has the same value unless it is `k`. -/
def PairsAgreeBut (k : Text) (e e' : Text × Text) : Prop := e.1 = e'.1 ∧ (e.1 ≠ k → e = e')

/-- Trees with the same numbers and paths whose nodes agree but at the path `k`. -/
structure KeyTree.AgreeBut (k : Text) (t t' : KeyTree) : Prop where
  index_eq : t.index = t'.index
  nodes : List.Forall₂ (Node.AgreeBut k) t.nodes t'.nodes

theorem Node.AgreeBut.rel_entry {k : Text} {n n' : Node} (h : n.AgreeBut k n') :
    Option.Rel (PairsAgreeBut k) n.entry? n'.entry? := by
  rw [Node.entry?, Node.entry?]
  cases hv : n.value with
  | none =>
      have hv' : n'.value = none := by simpa [hv] using h.isSome_value_eq.symm
      rw [hv']
      exact .none
  | some v =>
      obtain ⟨v', hv'⟩ : ∃ v', n'.value = some v' := by
        rw [← Option.isSome_iff_exists, ← h.isSome_value_eq, hv, Option.isSome_some]
      rw [hv']
      refine .some ⟨h.path_eq, fun hne => ?_⟩
      obtain rfl := h.eq_of_ne hne
      rw [Option.some.inj (hv.symm.trans hv')]

namespace KeyTree

variable {t t' : KeyTree} {k p : Text} {ps : List Text} {values values' : Text → Option Text}
  {es es' : List (Text × Text)} {i : Nat}

namespace AgreeBut

theorem size_eq (h : t.AgreeBut k t') : t.size = t'.size := h.nodes.length_eq

theorem node? (h : t.AgreeBut k t') (i : Nat) :
    Option.Rel (Node.AgreeBut k) (t.node? i) (t'.node? i) := by
  obtain ⟨hlength, hget⟩ := List.forall₂_iff_get.mp h.nodes
  rw [KeyTree.node?, KeyTree.node?]
  by_cases hi : i < t.nodes.length
  · have hi' : i < t'.nodes.length := hlength ▸ hi
    rw [List.getElem?_eq_getElem hi, List.getElem?_eq_getElem hi']
    exact .some (hget i hi hi')
  · have hi' : t'.nodes.length ≤ i := hlength ▸ Nat.le_of_not_lt hi
    rw [List.getElem?_eq_none (Nat.le_of_not_lt hi), List.getElem?_eq_none hi']
    exact .none

theorem childrenOf_eq (h : t.AgreeBut k t') (i : Nat) : t.childrenOf i = t'.childrenOf i := by
  have hnode := h.node? i
  rw [childrenOf, childrenOf]
  generalize t.node? i = n at hnode ⊢
  generalize t'.node? i = n' at hnode ⊢
  cases hnode with
  | none => rfl
  | some hn => exact hn.children_eq

theorem preorder_eq (h : t.AgreeBut k t') (fuel : Nat) (stack : List Nat) :
    t.preorder fuel stack = t'.preorder fuel stack := by
  induction fuel generalizing stack with
  | zero => rfl
  | succ fuel ih =>
      cases stack with
      | nil => rfl
      | cons id stack => rw [preorder, preorder, h.childrenOf_eq, ih]

theorem descendantIds_eq (h : t.AgreeBut k t') : t.descendantIds = t'.descendantIds := by
  rw [descendantIds, descendantIds, h.size_eq, h.childrenOf_eq, h.preorder_eq]

theorem descendants (h : t.AgreeBut k t') :
    List.Forall₂ (Node.AgreeBut k) t.descendants t'.descendants := by
  have hnode : ∀ i j, i = j → Option.Rel (Node.AgreeBut k) (t.node? i) (t'.node? j) := by
    rintro i _ rfl
    exact h.node? i
  rw [KeyTree.descendants, KeyTree.descendants, h.descendantIds_eq]
  apply List.rel_filterMap hnode
  exact List.forall₂_same.mpr fun i _ => rfl

theorem entries (h : t.AgreeBut k t') :
    List.Forall₂ (PairsAgreeBut k) t.entries t'.entries :=
  List.rel_filterMap (fun _ _ hn => hn.rel_entry) h.descendants

end AgreeBut

/-! ## Trees of entries -/

theorem agreeBut_ofPaths (hsome : ∀ p, (values p).isSome = (values' p).isSome)
    (hother : ∀ p, p ≠ k → values p = values' p) :
    (ofPaths ps values).AgreeBut k (ofPaths ps values') where
  index_eq := rfl
  nodes := by
    rw [ofPaths, ofPaths, List.forall₂_map_left_iff, List.forall₂_map_right_iff,
      List.forall₂_same]
    intro p _
    refine ⟨rfl, rfl, rfl, hsome p, fun hne => ?_⟩
    rw [nodeOf, nodeOf, hother p hne]

theorem map_fst_of_forall₂ (h : List.Forall₂ (PairsAgreeBut k) es es') :
    es.map Prod.fst = es'.map Prod.fst := by
  induction h with
  | nil => rfl
  | cons he _ ih => rw [List.map_cons, List.map_cons, he.1, ih]

theorem valueOf_of_forall₂ (h : List.Forall₂ (PairsAgreeBut k) es es') (hp : p ≠ k) :
    valueOf es p = valueOf es' p := by
  have hfilter : (es.filter fun e => e.1 = p) = es'.filter fun e => e.1 = p := by
    induction h with
    | nil => rfl
    | @cons e e' _ _ he _ ih =>
        by_cases hkey : e.1 = k
        · have hkey' : e'.1 = k := he.1.symm.trans hkey
          rw [List.filter_cons_of_neg (by simp [hkey, Ne.symm hp]),
            List.filter_cons_of_neg (by simp [hkey', Ne.symm hp]), ih]
        · rw [he.2 hkey, List.filter_cons, List.filter_cons, ih]
  rw [valueOf, valueOf, hfilter]

theorem agreeBut_build (h : List.Forall₂ (PairsAgreeBut k) es es') :
    (build es).AgreeBut k (build es') := by
  obtain ⟨-, hbuild⟩ := build_eq_ofPaths es
  obtain ⟨-, hbuild'⟩ := build_eq_ofPaths es'
  rw [hbuild, hbuild', pathsOf_congr (map_fst_of_forall₂ h)]
  apply agreeBut_ofPaths
  · intro p
    rw [Bool.eq_iff_iff, isSome_valueOf_iff, isSome_valueOf_iff, map_fst_of_forall₂ h]
  · intro p hp
    exact valueOf_of_forall₂ h hp

end KeyTree
end ResourceBundles
