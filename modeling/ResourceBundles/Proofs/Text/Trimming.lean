import ResourceBundles.Text.Blank
import Mathlib

/-!
# Trimming

A text without white space at its ends is what is left of it when it is trimmed,
whatever white space stands around it.
-/

namespace ResourceBundles.Text

theorem toLower_of_isWhiteSpace {c : Char} (h : isWhiteSpace c = true) : c.toLower = c := by
  have hupper : ¬(c.val ≥ 'A'.val ∧ c.val ≤ 'Z'.val) := by
    rintro ⟨hlow, hhigh⟩
    have hlow' : 65 ≤ c.toNat := UInt32.le_iff_toNat_le.mp hlow
    have hhigh' : c.toNat ≤ 90 := UInt32.le_iff_toNat_le.mp hhigh
    simp only [isWhiteSpace, Bool.or_eq_true, Bool.and_eq_true, decide_eq_true_eq, beq_iff_eq] at h
    omega
  rw [Char.toLower, dif_neg hupper]

theorem dropWhile_of_not_isWhiteSpace {t : Text} (h : ∀ c ∈ t, isWhiteSpace c = false) (u : Text)
    (hne : t ≠ []) : (t ++ u).dropWhile isWhiteSpace = t ++ u := by
  cases t with
  | nil => exact absurd rfl hne
  | cons c t => exact List.dropWhile_cons_of_neg (by simp [h c List.mem_cons_self])

theorem trim_append_append {before word after : Text}
    (hbefore : ∀ c ∈ before, isWhiteSpace c = true) (hword : ∀ c ∈ word, isWhiteSpace c = false)
    (hafter : ∀ c ∈ after, isWhiteSpace c = true) : trim (before ++ (word ++ after)) = word := by
  have hreverse : ∀ c ∈ after.reverse, isWhiteSpace c = true := by simpa using hafter
  rw [trim, trimStart, List.dropWhile_append_of_pos hbefore]
  by_cases hne : word = []
  · rw [hne, List.nil_append, List.dropWhile_eq_nil_iff.mpr hafter]
    rfl
  · have hword' : ∀ c ∈ word.reverse, isWhiteSpace c = false := by simpa using hword
    have hend := dropWhile_of_not_isWhiteSpace hword' [] (by simpa using hne)
    rw [List.append_nil] at hend
    rw [dropWhile_of_not_isWhiteSpace hword after hne, trimEnd, List.reverse_append,
      List.dropWhile_append_of_pos hreverse, hend, List.reverse_reverse]

/-- White space that is taken from the start first makes no difference. -/
theorem trim_dropWhile {p : Char → Bool} (hp : ∀ c, p c = true → isWhiteSpace c = true)
    (t : Text) : trim (t.dropWhile p) = trim t := by
  have hstart : trimStart (t.dropWhile p) = trimStart t := by
    induction t with
    | nil => rfl
    | cons c t ih =>
        cases hc : p c with
        | false => rw [List.dropWhile_cons_of_neg (by simp [hc])]
        | true =>
            rw [List.dropWhile_cons_of_pos hc, ih, trimStart, trimStart,
              List.dropWhile_cons_of_pos (hp c hc)]
  rw [trim, trim, hstart]

/-- Nothing is left of white space, and of nothing else. -/
theorem trim_eq_nil_iff {t : Text} : trim t = [] ↔ ∀ c ∈ t, isWhiteSpace c = true := by
  constructor
  · intro h
    have hstart : ∀ c ∈ trimStart t, isWhiteSpace c = true := by
      rw [trim, trimEnd, List.reverse_eq_nil_iff, List.dropWhile_eq_nil_iff] at h
      simpa using h
    have hnil : trimStart t = [] := by
      by_contra hne
      obtain ⟨c, u, hc⟩ := List.exists_cons_of_ne_nil hne
      -- What stands in front of the rest is no white space.
      have hhead := List.head?_dropWhile_not isWhiteSpace t
      rw [← trimStart, hc] at hhead
      simp [hstart c (by simp [hc])] at hhead
    exact List.dropWhile_eq_nil_iff.mp hnil
  · intro h
    rw [trim, trimStart, List.dropWhile_eq_nil_iff.mpr h]
    rfl

end ResourceBundles.Text
