import ResourceBundles.Text.Dotted
import Mathlib.Data.List.Nodup

/-!
# Ancestors of dotted texts

The lineage of a text lists its ancestors from the top down to the text itself:
everything in front of one of its dots, then the whole text.  It grows by the
last dot, so that the lineage of a text continues the lineage of its parent.
-/

namespace ResourceBundles.Dotted

/-- `name` stands behind the last dot of `path` and `above` in front of it.  A
text without a dot is its own name, below the empty text. -/
def Splits (path above name : Text) : Prop :=
  '.' ∉ name ∧ (path = above ++ '.' :: name ∨ above = [] ∧ path = name)

theorem cutLast_append (front : Text) {back : Text} (h : '.' ∉ back) :
    cutLast (front ++ '.' :: back) = some (front, back) := by
  induction front with
  | nil => simp [cutLast, cutLast_eq_none_iff.mpr h]
  | cons c front ih => simp [cutLast, ih]

theorem parent_append (front : Text) {back : Text} (h : '.' ∉ back) :
    parent (front ++ '.' :: back) = front := by
  simp [parent, cutLast_append front h]

theorem lastSegment_append (front : Text) {back : Text} (h : '.' ∉ back) :
    lastSegment (front ++ '.' :: back) = back := by
  simp [lastSegment, cutLast_append front h]

theorem parent_of_not_mem {t : Text} (h : '.' ∉ t) : parent t = [] := by
  simp [parent, cutLast_eq_none_iff.mpr h]

theorem lastSegment_of_not_mem {t : Text} (h : '.' ∉ t) : lastSegment t = t := by
  simp [lastSegment, cutLast_eq_none_iff.mpr h]

theorem splits_self (t : Text) : Splits t (parent t) (lastSegment t) := by
  cases hc : cutLast t with
  | none =>
      have ht : '.' ∉ t := cutLast_eq_none_iff.mp hc
      rw [parent_of_not_mem ht, lastSegment_of_not_mem ht]
      exact ⟨ht, .inr ⟨rfl, rfl⟩⟩
  | some p =>
      obtain ⟨front, back⟩ := p
      obtain ⟨rfl, hb⟩ := eq_of_cutLast hc
      rw [parent_append front hb, lastSegment_append front hb]
      exact ⟨hb, .inl rfl⟩

/-- What passes from parents to their children holds of every text. -/
@[elab_as_elim]
theorem parent_induction {motive : Text → Prop} (nil : motive [])
    (child : ∀ t, t ≠ [] → motive (parent t) → motive t) (t : Text) : motive t :=
  if h : t = [] then h ▸ nil
  else
    have : (parent t).length < t.length := parent_length_lt h
    child t h (parent_induction nil child (parent t))
termination_by t.length

/-! ## Lineages -/

/-- The texts in front of the dots of a text, the shortest first. -/
def beforeDots : Text → List Text
  | [] => []
  | c :: t => (if c = '.' then [[]] else []) ++ (beforeDots t).map (c :: ·)

/-- The ancestors of a text and the text itself, the shortest first.  The empty
text is no ancestor, and it has none. -/
def lineage (t : Text) : List Text := (beforeDots t ++ [t]).filter (· ≠ [])

theorem mem_beforeDots {s t : Text} : s ∈ beforeDots t ↔ ∃ back, t = s ++ '.' :: back := by
  induction t generalizing s with
  | nil => simp [beforeDots]
  | cons c t ih =>
      cases s with
      | nil => by_cases hc : c = '.' <;> simp [beforeDots, hc]
      | cons d s =>
          have hcons : d :: s ∈ beforeDots (c :: t) ↔ s ∈ beforeDots t ∧ c = d := by
            by_cases hc : c = '.' <;> simp [beforeDots, hc]
          rw [hcons, ih]
          simp [and_comm]

theorem mem_lineage {s t : Text} :
    s ∈ lineage t ↔ s ≠ [] ∧ (s = t ∨ ∃ back, t = s ++ '.' :: back) := by
  rw [lineage, List.mem_filter, List.mem_append, List.mem_singleton, mem_beforeDots, or_comm,
    and_comm, decide_eq_true_iff]

@[simp] theorem lineage_nil : lineage [] = [] := rfl

theorem not_nil_mem_lineage (t : Text) : [] ∉ lineage t := fun h => (mem_lineage.mp h).1 rfl

theorem self_mem_lineage {t : Text} (h : t ≠ []) : t ∈ lineage t :=
  mem_lineage.mpr ⟨h, .inl rfl⟩

theorem beforeDots_of_not_mem {t : Text} (h : '.' ∉ t) : beforeDots t = [] := by
  rw [List.eq_nil_iff_forall_not_mem]
  intro s hs
  obtain ⟨back, rfl⟩ := mem_beforeDots.mp hs
  simp at h

theorem beforeDots_append (front : Text) {back : Text} (h : '.' ∉ back) :
    beforeDots (front ++ '.' :: back) = beforeDots front ++ [front] := by
  induction front with
  | nil => simp [beforeDots, beforeDots_of_not_mem h]
  | cons c front ih => simp [beforeDots, ih]

/-- A lineage goes on from the lineage of the parent. -/
theorem lineage_eq {t : Text} (h : t ≠ []) : lineage t = lineage (parent t) ++ [t] := by
  obtain ⟨hn, ht | ⟨hp, ht⟩⟩ := splits_self t
  · have hb : beforeDots t = beforeDots (parent t) ++ [parent t] :=
      (congrArg beforeDots ht).trans (beforeDots_append _ hn)
    have ht' : [t].filter (· ≠ []) = [t] := by simp [h]
    rw [lineage, List.filter_append, hb, ht', lineage]
  · rw [← ht] at hn
    simp [lineage, hp, beforeDots_of_not_mem hn, beforeDots, h]

theorem length_le_of_mem_lineage {s t : Text} (h : s ∈ lineage t) : s.length ≤ t.length := by
  obtain ⟨-, rfl | ⟨back, rfl⟩⟩ := mem_lineage.mp h
  · exact Nat.le_refl _
  · simp

/-- `s` is an ancestor of `t`: what stands in front of one of its dots, or the empty text. -/
def Above (s t : Text) : Prop := t ≠ [] ∧ (s = [] ∨ ∃ back, t = s ++ '.' :: back)

theorem mem_cons_lineage {s t : Text} : s ∈ [] :: lineage t ↔ s = [] ∨ s = t ∨ Above s t := by
  rw [List.mem_cons, mem_lineage, Above]
  by_cases hs : s = []
  · simp [hs]
  · have ht : (∃ back, t = s ++ '.' :: back) → t ≠ [] := by
      rintro ⟨back, rfl⟩
      simp
    simp only [hs, ne_eq, not_false_eq_true, true_and, false_or]
    exact or_congr_right (and_iff_right_of_imp ht).symm

theorem lineage_nodup (t : Text) : (lineage t).Nodup := by
  induction t using parent_induction with
  | nil => simp
  | child t ht ih =>
      rw [lineage_eq ht, List.nodup_append]
      refine ⟨ih, List.nodup_singleton t, ?_⟩
      intro s hs u hu hsu
      -- A text is longer than everything in the lineage of its parent.
      have hlen := length_le_of_mem_lineage hs
      have hlt := parent_length_lt ht
      rw [hsu, List.mem_singleton.mp hu] at hlen
      omega

theorem lineage_prefix {s t : Text} (h : s ∈ lineage t) : lineage s <+: lineage t := by
  induction t using parent_induction with
  | nil => exact absurd h List.not_mem_nil
  | child t ht ih =>
      have hcons := lineage_eq ht
      rcases List.mem_append.mp (hcons ▸ h) with h | h
      · exact (ih h).trans (hcons ▸ List.prefix_append _ _)
      · obtain rfl := List.mem_singleton.mp h
        exact List.prefix_rfl

/-- What lies above a text has a child on the way down to it. -/
theorem exists_child_of_mem_lineage {s t : Text} (h : s ∈ lineage t) (hne : s ≠ t) :
    ∃ u ∈ lineage t, u ≠ [] ∧ parent u = s := by
  induction t using parent_induction with
  | nil => exact absurd h List.not_mem_nil
  | child t ht ih =>
      rw [lineage_eq ht] at h ⊢
      have habove := (List.mem_append.mp h).resolve_right fun h => hne (List.mem_singleton.mp h)
      by_cases hs : s = parent t
      · exact ⟨t, List.mem_append_right _ (List.mem_singleton_self t), ht, hs.symm⟩
      · obtain ⟨u, hu, hchild⟩ := ih habove hs
        exact ⟨u, List.mem_append_left _ hu, hchild⟩

end ResourceBundles.Dotted
