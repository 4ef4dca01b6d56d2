import ResourceBundles.Proofs.Format.Positions
import ResourceBundles.Proofs.Format.Writing

/-!
# Dates and times in conversion formats

The date mark of a specifier decides the kind of its argument, but not whether it takes
one: behind the mark, too, the conversions `%` and `n` stand for fixed text.  Every other
date or time takes an argument as a specifier without the mark would.
-/

namespace ResourceBundles.Conversion

open Specifier (isLiteral isLiteral_iff scan)

variable {before : List Specifier} {s : Specifier} {nearest : Option Nat} {ordinals p : Nat}
  {refs : List (Nat × Kind)} {t : Text}

theorem exists_positionBehind_iff :
    (∃ p, positionBehind nearest ordinals s = some p) ↔
      s.conversion ≠ '%' ∧ s.conversion ≠ 'n' ∧
        (∀ ds ∈ s.index, Nat.ofDigitChars 10 ds 0 ≤ positionLimit) ∧
        (s.index = none → '<' ∈ s.flags → nearest ≠ none) := by
  by_cases hc : s.conversion = '%' ∨ s.conversion = 'n'
  · refine iff_of_false ?_ fun h => hc.elim h.1 h.2.1
    rintro ⟨p, hp⟩
    simp [positionBehind, isLiteral_iff.mpr hc] at hp
  have hliteral : isLiteral s.conversion = false := by
    rw [Bool.eq_false_iff, ne_eq, isLiteral_iff]
    exact hc
  rw [not_or] at hc
  rw [positionBehind, hliteral, if_neg Bool.false_ne_true, and_iff_right hc.1, and_iff_right hc.2]
  cases hindex : s.index with
  | none =>
      by_cases hflag : '<' ∈ s.flags
      · simp [hflag, Option.ne_none_iff_exists']
      · simp [hflag]
  | some digits =>
      by_cases hzero : Nat.ofDigitChars 10 digits 0 = 0
      · simp [hzero]
      · by_cases hle : Nat.ofDigitChars 10 digits 0 ≤ positionLimit
        · simp [hzero, hle]
        · simp [hzero, hle]

theorem nearest?_eq_none_iff : nearest? before = none ↔ placed before = [] := by
  induction before with
  | nil => simp [nearest?, placed]
  | cons s before ih =>
      rw [nearest?, Option.or_eq_none_iff, placed, List.append_eq_nil_iff, ← ih, and_comm]
      simp [position?]

theorem exists_placed_append (after before : List Specifier) :
    ∃ rest, placed (after ++ before) = placed before ++ rest := by
  induction after with
  | nil => exact ⟨[], (List.append_nil _).symm⟩
  | cons s after ih =>
      obtain ⟨rest, hrest⟩ := ih
      rw [List.cons_append, placed, hrest, List.append_assoc]
      exact ⟨_, rfl⟩

theorem typeAt_of_mem {k : Kind} (h : (p, k) ∈ refs) :
    typeAt refs p = if ∀ r ∈ refs, r.1 = p → r.2 = k then .single k else .universal := by
  have hmem : ∀ l, l ∈ kindsAt refs p ↔ (p, l) ∈ refs := by
    intro l
    simp [kindsAt]
  have hne : kindsAt refs p ≠ [] := List.ne_nil_of_mem ((hmem k).mpr h)
  split_ifs with hall
  · have hsome : common? (kindsAt refs p) = some k :=
      common?_eq_some_iff.mpr ⟨hne, fun l hl => hall (p, l) ((hmem l).mp hl) rfl⟩
    rw [typeAt, hsome]
    rfl
  · have hnone : common? (kindsAt refs p) = none := by
      rw [Option.eq_none_iff_forall_ne_some]
      intro l hl
      obtain ⟨-, hagree⟩ := common?_eq_some_iff.mp hl
      -- The common kind could only be `k`, which is one of them.
      obtain rfl : k = l := hagree k ((hmem k).mpr h)
      exact hall fun r hr hp => hagree r.2 ((hmem r.2).mpr (hp ▸ hr))
    rw [typeAt, hnone]
    rfl

/-- A date or time takes an argument exactly if its conversion is neither `%` nor `n`, its
index is within the limit, and there is an argument before it if it refers to that one.  Its
position then accepts dates and times, or any value if it is used for another kind too. -/
theorem dateTime_taken {before after : List Specifier} (hscan : scan t = before ++ s :: after)
    (hmark : s.dateMark ≠ none) :
    ((∃ p, position? before.reverse s = some p) ↔
      s.conversion ≠ '%' ∧ s.conversion ≠ 'n' ∧
        (∀ ds ∈ s.index, Nat.ofDigitChars 10 ds 0 ≤ positionLimit) ∧
        (s.index = none → '<' ∈ s.flags → placed before.reverse ≠ [])) ∧
    ∀ p, position? before.reverse s = some p →
      (∃ rest, placements t = placed before.reverse ++ (p, .dateTime) :: rest) ∧
      (resolve t)[p]? = some
        (if ∀ r ∈ placements t, r.1 = p → r.2 = .dateTime then .single .dateTime
        else .universal) := by
  have hnearest : nearest? before.reverse ≠ none ↔ placed before.reverse ≠ [] :=
    not_congr nearest?_eq_none_iff
  refine ⟨?_, fun p hp => ?_⟩
  · rw [← hnearest]
    exact exists_positionBehind_iff
  · have hkind : s.kind = .dateTime := by
      rw [Specifier.kind, if_pos (Option.isSome_iff_ne_none.mpr hmark)]
    have hsplit : (scan t).reverse = after.reverse ++ s :: before.reverse := by
      rw [hscan, List.reverse_append, List.reverse_cons, List.append_assoc]
      rfl
    obtain ⟨rest, hrest⟩ := exists_placed_append after.reverse (s :: before.reverse)
    have hplacements : placements t = placed before.reverse ++ (p, .dateTime) :: rest := by
      rw [placements, hsplit, hrest, placed, hp, hkind, List.append_assoc]
      rfl
    have hmem : (p, Kind.dateTime) ∈ placements t := by
      rw [hplacements]
      exact List.mem_append_right _ List.mem_cons_self
    refine ⟨⟨rest, hplacements⟩, ?_⟩
    rw [(resolve_eq_typeAt t).2, List.getElem?_map, List.getElem?_range (lt_slotCount hmem),
      Option.map_some, typeAt_of_mem hmem]

/-- Behind a date that writes fixed text and takes nothing, the third specifier has the
argument of the second one. -/
theorem dateTime_taken_relative :
    scan "%tn%2$tY%<Tm" = [⟨none, "", "", none, some 't', 'n'⟩,
      ⟨some "2", "", "", none, some 't', 'Y'⟩, ⟨none, "<", "", none, some 'T', 'm'⟩] ∧
    position? [⟨some "2", "", "", none, some 't', 'Y'⟩, ⟨none, "", "", none, some 't', 'n'⟩]
      ⟨none, "<", "", none, some 'T', 'm'⟩ = some 1 ∧
    (resolve "%tn%2$tY%<Tm")[1]? = some (.single .dateTime) := by
  have hscan : scan "%tn%2$tY%<Tm" = [⟨none, "", "", none, some 't', 'n'⟩,
      ⟨some "2", "", "", none, some 't', 'Y'⟩] ++ ⟨none, "<", "", none, some 'T', 'm'⟩ :: [] := by
    decide +kernel
  have hposition : position? [⟨some "2", "", "", none, some 't', 'Y'⟩,
      ⟨none, "", "", none, some 't', 'n'⟩] ⟨none, "<", "", none, some 'T', 'm'⟩ = some 1 := by
    decide +kernel
  have htype := ((dateTime_taken hscan (by decide)).2 1 hposition).2
  rw [if_pos (by decide +kernel)] at htype
  exact ⟨hscan, hposition, htype⟩

/-- A date mark in front of `n` does not make it take an argument. -/
theorem dateTime_literal :
    scan "%tn" = [⟨none, "", "", none, some 't', 'n'⟩] ∧ resolve "%tn" = [] := by
  decide +kernel

end ResourceBundles.Conversion
