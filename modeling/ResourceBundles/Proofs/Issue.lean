import ResourceBundles.Issue
import ResourceBundles.Proofs.Lists

/-!
# The order of issues

Issues are compared by file, line, rule and headline, one after the other.  The order
is total, but it does not look at values and details, so that different issues may tie.
Two arrangements of the same issues are sorted into lists that agree, place by place, in
everything that is compared, and into one list if no two of these issues tie.
-/

namespace ResourceBundles

theorem Rule.rank_inj {r r' : Rule} (h : r.rank = r'.rank) : r = r' := by
  cases r <;> cases r' <;> simp_all [rank]

namespace Issue

variable {i j : Issue} {xs ys : List Issue}

instance : Std.TransOrd Issue :=
  inferInstanceAs (Std.TransCmp (compareLex (compareOn file)
    (compareLex (compareOn fun i : Issue => i.line?.getD 0)
      (compareLex (compareOn fun i : Issue => i.rule.rank) (compareOn message)))))

/-- Issues tie if they agree in everything that the order looks at. -/
structure Ties (i j : Issue) : Prop where
  file_eq : i.file = j.file
  line_eq : i.line?.getD 0 = j.line?.getD 0
  rule_eq : i.rule = j.rule
  message_eq : i.message = j.message

theorem compare_eq_iff : compare i j = .eq ↔ i.Ties j := by
  have hcompare : compare i j = (compare i.file j.file).then
      ((compare (i.line?.getD 0) (j.line?.getD 0)).then
        ((compare i.rule.rank j.rule.rank).then (compare i.message j.message))) := rfl
  rw [hcompare]
  simp only [Ordering.then_eq_eq, Std.compare_eq_iff_eq]
  constructor
  · rintro ⟨hfile, hline, hrule, hmessage⟩
    exact ⟨hfile, hline, Rule.rank_inj hrule, hmessage⟩
  · intro h
    exact ⟨h.file_eq, h.line_eq, congrArg Rule.rank h.rule_eq, h.message_eq⟩

/-- Two arrangements of issues of which no two tie are sorted into the same list. -/
theorem sort_eq_of_perm (h : xs.Perm ys) (hties : ∀ i ∈ xs, ∀ j ∈ xs, i.Ties j → i = j) :
    sort xs = sort ys := by
  refine Lists.mergeSort_eq_of_perm compare ?_ h
  exact fun i hi j hj hij => hties i hi j hj (compare_eq_iff.mp hij)

/-! ## Sort keys -/

/-- What the order of issues looks at. -/
def sortKey (i : Issue) : Text × Nat × Rule × Text :=
  (i.file, i.line?.getD 0, i.rule, i.message)

theorem ties_iff : i.Ties j ↔ i.sortKey = j.sortKey := by
  simp only [sortKey, Prod.mk.injEq]
  exact ⟨fun h => ⟨h.file_eq, h.line_eq, h.rule_eq, h.message_eq⟩,
    fun ⟨hfile, hline, hrule, hmessage⟩ => ⟨hfile, hline, hrule, hmessage⟩⟩

/-- Issues are totally ordered by their sort keys, so that sorting determines the sort keys
in their places.  It determines the issues themselves where no two of them share a key. -/
theorem ordered_by_sortKey :
    (∀ i j : Issue, compare j i = (compare i j).swap) ∧
      (∀ i j k : Issue, (compare i j).isLE = true → (compare j k).isLE = true →
        (compare i k).isLE = true) ∧
      (∀ i j : Issue, compare i j = .eq ↔ i.sortKey = j.sortKey) ∧
      ∀ xs ys : List Issue, xs.Perm ys →
        (sort xs).map sortKey = (sort ys).map sortKey ∧
          ((∀ i ∈ xs, ∀ j ∈ xs, i.sortKey = j.sortKey → i = j) → sort xs = sort ys) := by
  have hcompare : ∀ i j : Issue, compare i j = .eq ↔ i.sortKey = j.sortKey :=
    fun i j => compare_eq_iff.trans ties_iff
  refine ⟨fun i j => Std.OrientedOrd.eq_swap, fun i j k => Std.TransCmp.isLE_trans, hcompare, ?_⟩
  intro xs ys h
  constructor
  · exact Lists.map_mergeSort_of_perm compare (fun i _ j _ => hcompare i j) h
  · intro hkeys
    exact sort_eq_of_perm h fun i hi j hj hij => hkeys i hi j hj (ties_iff.mp hij)

theorem ordered_by_sortKey_reversed :
    let i : Issue := .emptyKey ⟨"f", 1⟩ "a"
    let j : Issue := .parseError "f" "bad"
    [i, j].Perm [j, i] ∧ sort [i, j] = sort [j, i] := by
  intro i j
  have hperm : [i, j].Perm [j, i] := List.Perm.swap j i []
  refine ⟨hperm, (ordered_by_sortKey.2.2.2 [i, j] [j, i] hperm).2 ?_⟩
  decide +kernel

/-- Two entries on one line without a key: their values differ, but they are not compared. -/
theorem values_not_compared :
    let i : Issue := .emptyKey ⟨"f", 1⟩ "a"
    let j : Issue := .emptyKey ⟨"f", 1⟩ "b"
    compare i j = .eq ∧ i ≠ j ∧ [i, j].Perm [j, i] ∧ sort [i, j] ≠ sort [j, i] := by
  intro i j
  have hij : sort [i, j] = [i, j] := List.mergeSort_of_pairwise (by decide +kernel)
  have hji : sort [j, i] = [j, i] := List.mergeSort_of_pairwise (by decide +kernel)
  rw [hij, hji]
  exact ⟨by decide +kernel, by decide +kernel, List.Perm.swap j i [], by decide +kernel⟩

end Issue
end ResourceBundles
