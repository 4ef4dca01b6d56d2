import ResourceBundles.Argument.TypeSet

/-!
# Merging type sets

A type set is known by its kinds.  Sets of one kind that are merged keep it if they
agree, and fall back to any value if they do not.  Any number of sets can be merged in
any order and any bracketing: once nothing is shared the set stays `universal`, so the
result is always the set of the kinds that all of them share.
-/

namespace ResourceBundles.TypeSet

theorem ext_kinds {s t : TypeSet} (h : s.kinds = t.kinds) : s = t := by
  cases s
  cases t
  cases h
  rfl

theorem kinds_retain (s t : TypeSet) : (s.retain t).kinds =
    if s.kinds.filter t.contains = [] then [.universal] else s.kinds.filter t.contains := by
  unfold retain
  by_cases h : s.kinds.filter t.contains = []
  · rw [dif_pos h, if_pos h]
    rfl
  · rw [dif_neg h, if_neg h]

theorem retain_single (j k : Kind) :
    (single j).retain (single k) = if j = k then single j else universal := by
  apply ext_kinds
  rw [kinds_retain]
  by_cases h : j = k <;> simp [h]

theorem universal_retain_single (k : Kind) : universal.retain (single k) = universal := by
  rw [universal, retain_single, universal, ite_self]

/-! ## Sets of given kinds -/

variable {ks ls : List Kind} {k : Kind}

/-- Kinds in their order are what is left of all kinds. -/
theorem filter_all_eq (h : ks.Pairwise (·.rank < ·.rank)) :
    Kind.all.filter (fun k => k ∈ ks) = ks := by
  have hnodup : ∀ {l : List Kind}, l.Pairwise (·.rank < ·.rank) → l.Nodup := by
    intro l hl
    refine hl.imp ?_
    rintro a b hlt rfl
    exact Nat.lt_irrefl _ hlt
  have hall : (Kind.all.filter fun k => k ∈ ks).Pairwise (·.rank < ·.rank) :=
    Kind.all_pairwise_rank.filter _
  refine List.Perm.eq_of_pairwise ?_ hall h ?_
  · intro a b _ _ hab hba
    exact absurd hab (Nat.lt_asymm hba)
  · rw [List.perm_ext_iff_of_nodup (hnodup hall) (hnodup h)]
    simp [Kind.mem_all]

theorem kinds_ofKinds (ks : List Kind) : (ofKinds ks).kinds =
    if Kind.all.filter (fun k => k ∈ ks) = [] then [.universal]
    else Kind.all.filter (fun k => k ∈ ks) := by
  unfold ofKinds
  by_cases h : Kind.all.filter (fun k => k ∈ ks) = []
  · rw [dif_pos h, if_pos h, kinds_universal]
  · rw [dif_neg h, if_neg h]

theorem filter_all_eq_nil_iff : Kind.all.filter (fun k => k ∈ ks) = [] ↔ ks = [] := by
  simp [Kind.mem_all, List.eq_nil_iff_forall_not_mem]

theorem mem_kinds_ofKinds : k ∈ (ofKinds ks).kinds ↔ k ∈ ks ∨ ks = [] ∧ k = .universal := by
  simp only [kinds_ofKinds, filter_all_eq_nil_iff]
  by_cases h : ks = [] <;> simp [h, Kind.mem_all]

theorem ofKinds_congr (h : ∀ k, k ∈ ks ↔ k ∈ ls) : ofKinds ks = ofKinds ls := by
  simp only [ofKinds, h]

theorem ofKinds_kinds (s : TypeSet) : ofKinds s.kinds = s := by
  apply ext_kinds
  rw [kinds_ofKinds, filter_all_eq s.ordered, if_neg s.nonempty]

theorem ofKinds_nil : ofKinds [] = universal := rfl

theorem ofKinds_of_forall_eq (h : ∀ k ∈ ks, k = .universal) : ofKinds ks = universal := by
  by_cases hks : ks = []
  · rw [hks, ofKinds_nil]
  · obtain ⟨k, hk⟩ := List.exists_mem_of_ne_nil ks hks
    have huniversal : Kind.universal ∈ ks := h k hk ▸ hk
    rw [← ofKinds_kinds universal]
    refine ofKinds_congr fun l => ?_
    rw [kinds_universal, List.mem_singleton]
    exact ⟨h l, fun hl => hl ▸ huniversal⟩

/-- In place or not, two sets are merged to the same set. -/
theorem retain_eq_intersect (s t : TypeSet) : s.retain t = s.intersect t := by
  apply ext_kinds
  rw [kinds_retain, intersect, kinds_ofKinds, filter_all_eq (s.ordered.filter _)]

/-- A set that fell back to any value takes part as if it still had no kind. -/
theorem ofKinds_intersect (ks ls : List Kind) :
    (ofKinds ks).intersect (ofKinds ls) = ofKinds (ks.filter fun k => k ∈ ls) := by
  by_cases hks : ks = []
  · rw [hks, List.filter_nil, ofKinds_nil, intersect]
    refine ofKinds_of_forall_eq fun k hk => ?_
    simpa using (List.mem_filter.mp hk).1
  by_cases hls : ls = []
  · have hnone : (ks.filter fun k => k ∈ ls) = [] := by simp [hls]
    rw [hnone, hls, ofKinds_nil, intersect]
    refine ofKinds_of_forall_eq fun k hk => ?_
    simpa [contains] using (List.mem_filter.mp hk).2
  · refine ofKinds_congr fun k => ?_
    simp [contains, mem_kinds_ofKinds, hks, hls]

/-- The kinds that all of some sets have. -/
def shared (ss : List TypeSet) : List Kind :=
  Kind.all.filter fun k => ∀ s ∈ ss, k ∈ s.kinds

theorem mem_shared {ss : List TypeSet} : k ∈ shared ss ↔ ∀ s ∈ ss, k ∈ s.kinds := by
  simp [shared, Kind.mem_all]

theorem filter_all_shared (ss : List TypeSet) :
    Kind.all.filter (fun k => k ∈ shared ss) = shared ss :=
  filter_all_eq (Kind.all_pairwise_rank.filter _)

theorem shared_perm {ss ts : List TypeSet} (h : ss.Perm ts) : shared ss = shared ts := by
  refine List.filter_congr fun k _ => ?_
  simp only [h.mem_iff]

/-! ## Any order and any bracketing -/

/-- The two ways to merge a set with another one. -/
inductive Merge where
  | intersect
  | retain

def Merge.apply : Merge → TypeSet → TypeSet → TypeSet
  | intersect, s, t => s.intersect t
  | retain, s, t => s.retain t

/-- Type sets to be merged, in some order and bracketing. -/
inductive Merging where
  | one (s : TypeSet)
  | both (how : Merge) (a b : Merging)

namespace Merging

def sets : Merging → List TypeSet
  | one s => [s]
  | both _ a b => a.sets ++ b.sets

def result : Merging → TypeSet
  | one s => s
  | both how a b => how.apply a.result b.result

/-- The bracketed parts of a merging, which is a part of itself. -/
inductive Part : Merging → Merging → Prop
  | whole (m : Merging) : Part m m
  | left {part a : Merging} (how : Merge) (b : Merging) (h : Part part a) :
      Part part (both how a b)
  | right {part b : Merging} (how : Merge) (a : Merging) (h : Part part b) :
      Part part (both how a b)

variable {m part : Merging}

theorem Part.sets_subset (h : Part part m) : part.sets ⊆ m.sets := by
  induction h with
  | whole => exact List.Subset.refl _
  | left how b _ ih => exact List.subset_append_of_subset_left _ ih
  | right how a _ ih => exact List.subset_append_of_subset_right _ ih

/-- By induction on the brackets. -/
theorem result_eq (m : Merging) : m.result = ofKinds (shared m.sets) := by
  induction m with
  | one s =>
      rw [result, ← ofKinds_kinds s, sets]
      refine ofKinds_congr fun k => ?_
      simp [mem_shared, ofKinds_kinds]
  | both how a b iha ihb =>
      have happly : ∀ s t, how.apply s t = s.intersect t := by
        intro s t
        cases how with
        | intersect => rfl
        | retain => exact retain_eq_intersect s t
      rw [result, happly, iha, ihb, ofKinds_intersect, sets]
      refine ofKinds_congr fun k => ?_
      simp [mem_shared, or_imp, forall_and]

/-- Where two parts share nothing, no kind is in all sets. -/
theorem shared_eq_nil {how : Merge} {a b : Merging} (h : Part (both how a b) m)
    (hnone : ∀ k ∈ a.result.kinds, k ∉ b.result.kinds) : shared m.sets = [] := by
  rw [List.eq_nil_iff_forall_not_mem]
  intro k hk
  have hpart : ∀ s ∈ a.sets ++ b.sets, k ∈ s.kinds :=
    fun s hs => mem_shared.mp hk s (h.sets_subset hs)
  have hside : ∀ c : Merging, c.sets ⊆ a.sets ++ b.sets → k ∈ c.result.kinds := by
    intro c hc
    rw [result_eq, mem_kinds_ofKinds]
    exact .inl (mem_shared.mpr fun s hs => hpart s (hc hs))
  exact hnone k (hside a (List.subset_append_left _ _)) (hside b (List.subset_append_right _ _))

/-- However some sets are arranged, bracketed and merged, the result is the set of the kinds that
all of them have, or `universal` if there is none.  It is `universal` as soon as two parts share
nothing. -/
theorem result_eq_ofKinds_shared (m : Merging) {ss : List TypeSet} (h : m.sets.Perm ss) :
    m.result = ofKinds (shared ss) ∧
      m.result.kinds = (if shared ss = [] then [.universal] else shared ss) ∧
      ∀ how a b, Part (both how a b) m → (∀ k ∈ a.result.kinds, k ∉ b.result.kinds) →
        m.result = universal := by
  have hresult : m.result = ofKinds (shared ss) := by rw [result_eq, shared_perm h]
  refine ⟨hresult, ?_, ?_⟩
  · rw [hresult, kinds_ofKinds, filter_all_shared]
  · intro how a b hpart hnone
    rw [result_eq, shared_eq_nil hpart hnone, ofKinds_nil]

/-- Two sets that share nothing in the middle, beside a set with the kind `universal`. -/
theorem result_eq_ofKinds_shared_collapsed :
    let s := ofKinds [.integer, .floating]
    let t := single .dateTime
    let u := ofKinds [.floating, .universal]
    let m := both .retain (one u) (both .intersect (one s) (one t))
    m.sets.Perm [s, t, u] ∧ m.result = ofKinds (shared [s, t, u]) ∧ m.result = universal := by
  intro s t u m
  have hperm : ([u] ++ [s, t]).Perm ([s, t] ++ [u]) := List.perm_append_comm
  obtain ⟨hresult, -, hcollapse⟩ := result_eq_ofKinds_shared m hperm
  refine ⟨hperm, hresult, hcollapse .intersect (one s) (one t) ?_ (by decide)⟩
  exact .right _ _ (.whole _)

end Merging
end ResourceBundles.TypeSet
