import ResourceBundles.Proofs.Format.Positions
import ResourceBundles.Proofs.Format.Rendering

/-!
# Bounds on argument positions

Every index that is written stays below the limit on positions.  A pattern has no other
positions, so its arguments are within the limit.  A format also counts its ordinal
specifiers, which are not limited: it has at least as many arguments as such specifiers,
and it is within the limit exactly if they are.
-/

namespace ResourceBundles

/-! ## Positions of specifiers -/

namespace Conversion

variable {refs : List (Nat × Kind)} {before : List Specifier} {s : Specifier}
  {nearest : Option Nat} {ordinals bound p n : Nat} {r : Nat × Kind} {t : Text}

theorem slotCount_le (h : ∀ r ∈ refs, r.1 < n) : slotCount refs ≤ n := by
  induction refs using List.reverseRecOn with
  | nil => exact Nat.zero_le n
  | append_singleton refs r ih =>
      rw [slotCount_concat]
      apply Nat.max_le.mpr
      refine ⟨ih fun q hq => h q (List.mem_append_left _ hq), ?_⟩
      exact h r (List.mem_append_right _ (List.mem_singleton_self r))

theorem positionBehind_of_isOrdinal (h : isOrdinal s = true) :
    positionBehind nearest ordinals s = some ordinals := by
  rw [isOrdinal, Bool.and_eq_true, Bool.not_eq_true'] at h
  obtain ⟨hliteral, hindex⟩ := h
  rw [positionBehind, hliteral, if_neg Bool.false_ne_true]
  cases hs : s.index with
  | none => exact if_neg (by simpa [hs] using hindex)
  | some digits =>
      rw [hs] at hindex
      exact if_pos (beq_iff_eq.mp hindex)

/-- A specifier has the number of ordinal specifiers before it as its position, or a
position below the limit, or that of the nearest one. -/
theorem positionBehind_cases (h : positionBehind nearest ordinals s = some p) :
    (isOrdinal s = true ∧ p = ordinals) ∨ p < positionLimit ∨ nearest = some p := by
  cases hliteral : Specifier.isLiteral s.conversion with
  | true => simp [positionBehind, hliteral] at h
  | false =>
      rw [positionBehind, hliteral, if_neg Bool.false_ne_true] at h
      cases hs : s.index with
      | none =>
          simp only [hs] at h
          split_ifs at h with hflag
          · exact .inr (.inr h)
          · exact .inl ⟨by simpa [isOrdinal, hliteral, hs] using hflag, (Option.some.inj h).symm⟩
      | some digits =>
          simp only [hs] at h
          split_ifs at h with hzero hlimit
          · exact .inl ⟨by simp [isOrdinal, hliteral, hs, hzero], (Option.some.inj h).symm⟩
          · obtain rfl := Option.some.inj h
            exact .inr (.inl (by omega))

/-- The bound on the positions that may follow some specifiers. -/
def positionBound (before : List Specifier) : Nat := max positionLimit (before.countP isOrdinal)

theorem positionBound_le_cons : positionBound before ≤ positionBound (s :: before) := by
  rw [positionBound, positionBound, List.countP_cons]
  omega

theorem lt_of_nearest? (h : nearest? before = some p) : p < positionBound before := by
  induction before with
  | nil => exact absurd h.symm (Option.some_ne_none p)
  | cons s before ih =>
      rw [nearest?, Option.or_eq_some_iff] at h
      rcases h with h | ⟨-, h⟩
      · rcases positionBehind_cases h with ⟨hordinal, rfl⟩ | hlt | hnearest
        · rw [positionBound, List.countP_cons, if_pos hordinal]
          omega
        · exact Nat.lt_of_lt_of_le hlt (Nat.le_max_left _ _)
        · exact Nat.lt_of_lt_of_le (ih hnearest) positionBound_le_cons
      · exact Nat.lt_of_lt_of_le (ih h) positionBound_le_cons

theorem lt_of_mem_placed (h : r ∈ placed before) : r.1 < positionBound before := by
  induction before with
  | nil => exact absurd h List.not_mem_nil
  | cons s before ih =>
      rcases List.mem_append.mp h with h | h
      · exact Nat.lt_of_lt_of_le (ih h) positionBound_le_cons
      · -- A placed specifier is the nearest one of the next.
        obtain ⟨p, hp, rfl⟩ := Option.map_eq_some_iff.mp (Option.mem_toList.mp h)
        apply lt_of_nearest?
        rw [nearest?, Option.or_eq_some_iff]
        exact .inl hp

theorem countP_isOrdinal_le (before : List Specifier) :
    before.countP isOrdinal ≤ slotCount (placed before) := by
  induction before with
  | nil => exact Nat.zero_le _
  | cons s before ih =>
      rw [List.countP_cons]
      by_cases hs : isOrdinal s = true
      · have hposition : position? before s = some (before.countP isOrdinal) :=
          positionBehind_of_isOrdinal hs
        rw [if_pos hs, placed, hposition, Option.map_some, Option.toList_some, slotCount_concat]
        exact Nat.le_max_right _ _
      · rw [if_neg hs, Nat.add_zero, placed]
        cases position? before s with
        | none => rwa [Option.map_none, Option.toList_none, List.append_nil]
        | some p =>
            rw [Option.map_some, Option.toList_some, slotCount_concat]
            exact Nat.le_trans ih (Nat.le_max_left _ _)

theorem length_resolve (t : Text) : (resolve t).length = slotCount (placements t) := by
  rw [resolve_eq_slots, slots, List.length_map, List.length_map, List.length_range]

/-- There are at least as many arguments as ordinal specifiers, and more than those only
below the limit. -/
theorem length_resolve_bounds (t : Text) :
    (Specifier.scan t).countP isOrdinal ≤ (resolve t).length ∧
      (resolve t).length ≤ max positionLimit ((Specifier.scan t).countP isOrdinal) := by
  rw [length_resolve, placements, ← List.countP_reverse]
  refine ⟨countP_isOrdinal_le _, ?_⟩
  apply slotCount_le
  exact fun r hr => lt_of_mem_placed hr

/-! ## Formats of ordinal specifiers alone -/

theorem scan_ordinal (t : Text) :
    Specifier.scan ('%' :: 's' :: t) = ⟨none, [], [], none, none, 's'⟩ :: Specifier.scan t := by
  have hread : Specifier.read? ('s' :: t) = some (⟨none, [], [], none, none, 's'⟩, t) := by
    cases t <;> rfl
  rw [Specifier.scan, if_pos rfl]
  split
  next s rest h =>
    obtain ⟨rfl, rfl⟩ := Prod.mk.inj (Option.some.inj (hread.symm.trans h))
    rfl
  next h => exact absurd (hread.symm.trans h) (Option.some_ne_none _)

theorem countP_isOrdinal_scan (n : Nat) :
    (Specifier.scan (List.replicate n ['%', 's']).flatten).countP isOrdinal = n := by
  induction n with
  | zero => rw [List.replicate_zero, List.flatten_nil, Specifier.scan, List.countP_nil]
  | succ n ih =>
      rw [List.replicate_succ, List.flatten_cons, List.cons_append, List.cons_append,
        List.nil_append, scan_ordinal, List.countP_cons, ih]
      rfl

end Conversion

/-! ## Indices of placeholders -/

namespace Placeholder

theorem lt_of_readIndex {t : Text} {i : Nat} (h : readIndex t = .ok i) : i < positionLimit := by
  unfold readIndex at h
  split at h
  · cases h
  · split_ifs at h with hword hsign hlimit
    obtain rfl := Except.ok.inj h
    exact Nat.lt_of_not_le hlimit

theorem lt_of_ofSegments {s : Segments} {p : Placeholder} (h : ofSegments s = .ok p) :
    p.index < positionLimit := by
  unfold ofSegments at h
  split at h
  · cases h
  next index hindex =>
    split at h
    · cases h
    · split_ifs at h
      obtain rfl := Except.ok.inj h
      exact lt_of_readIndex hindex

end Placeholder

namespace Pattern

theorem lt_of_mem_placeholdersFrom {offset : Nat} {quoted : Bool} {t : Text}
    {ps : List Placeholder} (h : placeholdersFrom offset quoted t = .ok ps) :
    ∀ p ∈ ps, p.index < positionLimit := by
  induction offset, quoted, t using scan_induction generalizing ps with
  | nil offset quoted =>
      obtain rfl : [] = ps := by simpa [placeholdersFrom] using h
      exact List.forall_mem_nil _
  | quote offset quoted t ih =>
      rw [placeholdersFrom_quote] at h
      exact ih h
  | unclosed offset t hcut =>
      rw [placeholdersFrom_open, hcut] at h
      cases h
  | placeholder offset t k hcut ih =>
      rw [placeholdersFrom_open, hcut] at h
      cases hp : Placeholder.ofSegments k.segments with
      | error e => simp [hp] at h
      | ok p =>
          simp only [hp] at h
          cases hrest : placeholdersFrom (offset + 1 + k.length) false k.rest with
          | error e => simp [hrest, Except.map] at h
          | ok qs =>
              obtain rfl : p :: qs = ps := by simpa [hrest, Except.map] using h
              exact List.forall_mem_cons.mpr ⟨Placeholder.lt_of_ofSegments hp, ih hrest⟩
  | char offset quoted c t hquote hopen ih =>
      rw [placeholdersFrom_char hquote hopen] at h
      exact ih h

theorem length_resolve_le {t : Text} {types : List TypeSet} (h : resolve t = .ok types) :
    types.length ≤ positionLimit := by
  rw [resolve] at h
  cases hps : placeholders t with
  | error e => simp [hps, Except.map] at h
  | ok ps =>
      obtain rfl : List.replicate (arity ps) .universal = types := by
        simpa [hps, Except.map] using h
      rw [List.length_replicate]
      refine Nat.le_of_not_lt fun hlt => ?_
      obtain ⟨p, hp, hle⟩ := lt_arity_iff.mp hlt
      exact Nat.not_lt.mpr hle (lt_of_mem_placeholdersFrom hps p hp)

end Pattern

namespace Style

/-- The argument positions of a pattern are within the limit, and those of a format are
exactly if it has no more ordinal specifiers than the limit. -/
theorem length_le_positionLimit (t : Text) :
    (∀ types, Style.pattern.resolve t = .ok types → types.length ≤ positionLimit) ∧
      ∃ types, Style.conversion.resolve t = .ok types ∧
        (Specifier.scan t).countP Conversion.isOrdinal ≤ types.length ∧
        types.length ≤ max positionLimit ((Specifier.scan t).countP Conversion.isOrdinal) ∧
        (types.length ≤ positionLimit ↔
          (Specifier.scan t).countP Conversion.isOrdinal ≤ positionLimit) := by
  obtain ⟨hlower, hupper⟩ := Conversion.length_resolve_bounds t
  refine ⟨fun types h => Pattern.length_resolve_le h, Conversion.resolve t, rfl, hlower, hupper, ?_⟩
  omega

/-- One ordinal specifier more than the limit takes a position beyond it. -/
theorem conversion_exceeds_positionLimit :
    ∃ types, Style.conversion.resolve (List.replicate (positionLimit + 1) ['%', 's']).flatten =
        .ok types ∧ positionLimit < types.length := by
  refine ⟨_, rfl, ?_⟩
  have hlower := (Conversion.length_resolve_bounds
    (List.replicate (positionLimit + 1) ['%', 's']).flatten).1
  rw [Conversion.countP_isOrdinal_scan] at hlower
  exact hlower

end Style
end ResourceBundles
