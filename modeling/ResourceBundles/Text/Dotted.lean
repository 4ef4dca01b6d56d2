import ResourceBundles.Text.Basic

/-!
# Dotted texts

A dotted text names a place in a hierarchy, one segment between two dots.  The
last dot separates the name of the place from the text of its parent; a text
without a dot is its own name, and its parent is the empty text.
-/

namespace ResourceBundles.Dotted

/-- The parts before and after the last dot, if there is a dot. -/
def cutLast : Text → Option (Text × Text)
  | [] => none
  | c :: t =>
    match cutLast t with
    | some (front, back) => some (c :: front, back)
    | none => if c = '.' then some ([], t) else none

theorem cutLast_eq_none_iff {t : Text} : cutLast t = none ↔ '.' ∉ t := by
  induction t with
  | nil => simp [cutLast]
  | cons c t ih =>
    cases h : cutLast t with
    | none => simp [cutLast, h, ih.mp h, eq_comm]
    | some p =>
      have ht : '.' ∈ t := Decidable.byContradiction fun hn => by simp [ih.mpr hn] at h
      simp [cutLast, h, ht]

theorem eq_of_cutLast {t front back : Text} (h : cutLast t = some (front, back)) :
    t = front ++ '.' :: back ∧ '.' ∉ back := by
  induction t generalizing front with
  | nil => simp [cutLast] at h
  | cons c t ih =>
    cases ht : cutLast t with
    | none =>
      have hc : c = '.' ∧ [] = front ∧ t = back := by
        simpa [cutLast, ht, Option.some.injEq, Prod.mk.injEq] using h
      obtain ⟨rfl, rfl, rfl⟩ := hc
      exact ⟨rfl, cutLast_eq_none_iff.mp ht⟩
    | some p =>
      obtain ⟨f, b⟩ := p
      have hc : c :: f = front ∧ b = back := by
        simpa [cutLast, ht, Option.some.injEq, Prod.mk.injEq] using h
      obtain ⟨rfl, rfl⟩ := hc
      obtain ⟨he, hb⟩ := ih ht
      exact ⟨by rw [he]; rfl, hb⟩

/-- The text before the last dot, which is empty if there is no dot. -/
def parent (t : Text) : Text := (cutLast t).elim [] Prod.fst

/-- The text after the last dot, which is the whole text if there is no dot. -/
def lastSegment (t : Text) : Text := (cutLast t).elim t Prod.snd

def segments (t : Text) : List Text := t.splitOn '.'

/-- A text that is not empty is longer than its parent. -/
theorem parent_length_lt {t : Text} (h : t ≠ []) : (parent t).length < t.length := by
  unfold parent
  cases hc : cutLast t with
  | none => simpa using List.length_pos_iff.mpr h
  | some p =>
    obtain ⟨front, back⟩ := p
    rw [(eq_of_cutLast hc).1]
    simp

end ResourceBundles.Dotted
