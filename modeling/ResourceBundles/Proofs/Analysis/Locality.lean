import ResourceBundles.Proofs.Analysis.Exactness
import ResourceBundles.Proofs.KeyTree.Agreement
import Mathlib

/-!
# One value at a time

The value of a key counts for nothing but that key.  Where two bundles differ in one value,
their analyses have trees of the same shape and the same signatures and issues everywhere
else, in the same order, whether the two values are good formats or not.
-/

namespace ResourceBundles

/-- The key of the entry that an issue is about. -/
def Issue.key? : Issue → Option Text
  | patternSyntax _ key .. => some key
  | emptyKey .. => some []
  | emptySegment _ key => some key
  | parseError .. => none

/-- Entries with the same key and line, and the same value unless the key is `k`. -/
structure Entry.AgreeBut (k : Text) (e e' : Entry) : Prop where
  key_eq : e.key = e'.key
  line_eq : e.line = e'.line
  value_eq_of_ne : e.key ≠ k → e.value = e'.value

/-- Bundles with the same keys and lines in the same order, and the same values but at `k`. -/
def Bundle.AgreeBut (k : Text) (b b' : Bundle) : Prop :=
  List.Forall₂ (Entry.AgreeBut k) b.entries b'.entries

/-- Signatures of one path, which are the same unless the path is `k`. -/
structure Signature.AgreeBut (k : Text) (s s' : Signature) : Prop where
  path_eq : s.path = s'.path
  eq_of_ne : s.path ≠ k → s = s'

variable {k path file : Text} {b b' : Bundle} {e e' : Entry} {s s' : Signature} {i : Issue}
  {style : Style}

namespace Bundle.AgreeBut

theorem map_eq {α : Type} {f : Entry → α} (h : b.AgreeBut k b')
    (hf : ∀ e e', Entry.AgreeBut k e e' → f e = f e') : b.entries.map f = b'.entries.map f := by
  rw [← List.forall₂_eq_eq_eq, List.forall₂_map_left_iff, List.forall₂_map_right_iff]
  exact List.Forall₂.imp hf h

theorem pairs (h : b.AgreeBut k b') :
    List.Forall₂ (PairsAgreeBut k) b.pairs b'.pairs := by
  rw [Bundle.pairs, Bundle.pairs, List.forall₂_map_left_iff, List.forall₂_map_right_iff]
  apply List.Forall₂.imp _ h
  intro e e' he
  refine ⟨he.key_eq, fun hne => ?_⟩
  rw [he.key_eq, he.value_eq_of_ne hne]

theorem line_eq (h : b.AgreeBut k b') (hb : b.Coherent) (hb' : b'.Coherent) (path : Text) :
    (b.get? path).map Entry.line = (b'.get? path).map Entry.line := by
  have hkeys : b.keys = b'.keys := h.map_eq fun e e' he => he.key_eq
  have hlines : b.entries.map Entry.line = b'.entries.map Entry.line :=
    h.map_eq fun e e' he => he.line_eq
  have hposition : b.position? path = b'.position? path := by
    rw [position?, position?, hb.positions_eq, hb'.positions_eq, hkeys]
  rw [get?, get?, hposition, Option.map_bind, Option.map_bind]
  congr 1
  funext i
  rw [Function.comp_apply, Function.comp_apply, ← List.getElem?_map, hlines, List.getElem?_map]

end Bundle.AgreeBut

namespace Analysis

theorem key?_of_keyIssue? (h : keyIssue? file e = some i) : i.key? = some e.key := by
  unfold keyIssue? at h
  split_ifs at h with hkey
  · obtain rfl := Option.some.inj h
    rw [hkey]
    rfl
  · obtain rfl := Option.some.inj h
    rfl

theorem key?_of_valueIssue? (h : valueIssue? file b s = some i) : i.key? = some s.path := by
  unfold valueIssue? at h
  split at h
  · exact absurd h.symm (Option.some_ne_none i)
  · obtain rfl := Option.some.inj h
    rfl

theorem filter_issue?_eq_none {o : Option Issue} (ho : ∀ i, o = some i → i.key? = some k) :
    o.filter (fun i => i.key? ≠ some k) = none := by
  rw [Option.filter_eq_none_iff]
  intro i hi
  simp [ho i hi]

/-- Issues about one key that are the same unless the key is `k` are the same where those
about `k` are left out. -/
theorem filter_issue?_eq (key : Text) {o o' : Option Issue}
    (ho : ∀ i, o = some i → i.key? = some key) (ho' : ∀ i, o' = some i → i.key? = some key)
    (heq : key ≠ k → o = o') :
    o.filter (fun i => i.key? ≠ some k) = o'.filter fun i => i.key? ≠ some k := by
  by_cases hkey : key = k
  · subst hkey
    rw [filter_issue?_eq_none ho, filter_issue?_eq_none ho']
  · rw [heq hkey]

theorem filter_keyIssue?_eq (he : Entry.AgreeBut k e e') :
    (keyIssue? file e).filter (fun i => i.key? ≠ some k) =
      (keyIssue? file e').filter fun i => i.key? ≠ some k := by
  apply filter_issue?_eq e.key
  · exact fun i => key?_of_keyIssue?
  · intro i hi
    rw [key?_of_keyIssue? hi, he.key_eq]
  · intro hne
    rw [keyIssue?, keyIssue?, he.key_eq, he.line_eq, he.value_eq_of_ne hne]

theorem filter_valueIssue?_eq (hs : Signature.AgreeBut k s s')
    (hline : (b.get? s.path).map Entry.line = (b'.get? s.path).map Entry.line) :
    (valueIssue? file b s).filter (fun i => i.key? ≠ some k) =
      (valueIssue? file b' s').filter fun i => i.key? ≠ some k := by
  apply filter_issue?_eq s.path
  · exact fun i => key?_of_valueIssue?
  · intro i hi
    rw [key?_of_valueIssue? hi, hs.path_eq]
  · intro hne
    rw [← hs.eq_of_ne hne, valueIssue?, valueIssue?, hline]

end Analysis

theorem KeyTree.AgreeBut.signatures {t t' : KeyTree} (h : t.AgreeBut k t') (style : Style) :
    List.Forall₂ (Signature.AgreeBut k) (t.signatures style) (t'.signatures style) := by
  rw [KeyTree.signatures, KeyTree.signatures, List.forall₂_map_left_iff,
    List.forall₂_map_right_iff]
  apply List.Forall₂.imp _ h.entries
  rintro ⟨p, v⟩ ⟨p', v'⟩ ⟨hpath, heq⟩
  refine ⟨hpath, fun hne => ?_⟩
  obtain ⟨rfl, rfl⟩ := Prod.mk.inj (heq hne)
  rfl

namespace Analysis

/-- Analyses of bundles that differ in the value of one key agree about all other keys. -/
theorem ofBundle_agreeBut (source : Source) (style : Style) (es es' : List Entry)
    (h : (Bundle.ofEntries es).AgreeBut k (Bundle.ofEntries es')) :
    let a := ofBundle source style (Bundle.ofEntries es)
    let a' := ofBundle source style (Bundle.ofEntries es')
    a.tree.AgreeBut k a'.tree ∧
      List.Forall₂ (Signature.AgreeBut k) a.signatures a'.signatures ∧
      a.issues.filter (fun i => i.key? ≠ some k) =
        a'.issues.filter fun i => i.key? ≠ some k := by
  intro a a'
  have htree : a.tree.AgreeBut k a'.tree := KeyTree.agreeBut_build h.pairs
  have hsignatures := htree.signatures style
  have hline := h.line_eq (Bundle.coherent_ofEntries es) (Bundle.coherent_ofEntries es')
  refine ⟨htree, hsignatures, ?_⟩
  simp only [a, a', ofBundle, List.filter_append]
  congr 1
  · exact Lists.filter_filterMap_congr h fun e e' he => filter_keyIssue?_eq he
  · exact Lists.filter_filterMap_congr hsignatures fun s s' hs =>
      filter_valueIssue?_eq hs (hline s.path)

/-- A broken pattern and a key with an empty segment, and beside them a key whose value is
open. -/
def withValue (value : Text) : List Entry :=
  [⟨"a.", "\x7b", 1⟩, ⟨"a.b", value, 2⟩, ⟨"c", "\x7b0\x7d", 3⟩]

theorem ofBundle_agreeBut_withValue :
    let b := Bundle.ofEntries (withValue "\x7b1\x7d")
    let b' := Bundle.ofEntries (withValue "\x7b1")
    let a := ofBundle ⟨"x", ⟨"x"⟩⟩ .pattern b
    let a' := ofBundle ⟨"x", ⟨"x"⟩⟩ .pattern b'
    b.AgreeBut "a.b" b' ∧ a.tree.AgreeBut "a.b" a'.tree ∧
      List.Forall₂ (Signature.AgreeBut "a.b") a.signatures a'.signatures ∧
      a.issues.filter (fun i => i.key? ≠ some "a.b".toList) =
        a'.issues.filter fun i => i.key? ≠ some "a.b".toList := by
  intro b b' a a'
  have h : b.AgreeBut "a.b" b' := by
    refine .cons ⟨rfl, rfl, fun _ => rfl⟩ (.cons ⟨rfl, rfl, fun hne => ?_⟩
      (.cons ⟨rfl, rfl, fun _ => rfl⟩ .nil))
    exact absurd rfl hne
  exact ⟨h, ofBundle_agreeBut _ _ _ _ h⟩

end Analysis
end ResourceBundles
