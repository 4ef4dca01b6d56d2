import ResourceBundles.Format.Conversion
import ResourceBundles.Proofs.Argument.Merging
import ResourceBundles.Proofs.Format.Grammar
import ResourceBundles.Proofs.Lists
import Mathlib.Data.List.Induction

/-!
# Positions of conversion arguments

A specifier has its position from its own index, from the nearest specifier before
it that has one, or from the number of ordinal specifiers before it.  The type set
of a position is settled by the kinds that refer to it: one kind if they agree, and
any value if they do not.  The order of the references does not matter.
-/

namespace ResourceBundles

namespace Conversion

/-! ## Positions -/

/-- Whether a specifier takes the next argument in sequence: it has neither an index
nor the flag `<`, or its index is 0. -/
def isOrdinal (s : Specifier) : Bool :=
  !Specifier.isLiteral s.conversion &&
    match s.index with
    | some digits => Nat.ofDigitChars 10 digits 0 == 0
    | none => !s.flags.contains '<'

/-- The position of a specifier, given the nearest position before it and the number
of ordinal specifiers before it.  A specifier that takes no argument has none, and
neither has one whose index is too large or has nothing to refer to. -/
def positionBehind (nearest : Option Nat) (ordinals : Nat) (s : Specifier) : Option Nat :=
  if Specifier.isLiteral s.conversion then none
  else
    match s.index with
    | some digits =>
      if Nat.ofDigitChars 10 digits 0 = 0 then some ordinals
      else if Nat.ofDigitChars 10 digits 0 ≤ positionLimit then
        some (Nat.ofDigitChars 10 digits 0 - 1)
      else none
    | none => if s.flags.contains '<' then nearest else some ordinals

/-- The position of the nearest specifier that has one, of specifiers that are listed
backwards. -/
def nearest? : List Specifier → Option Nat
  | [] => none
  | s :: before =>
    (positionBehind (nearest? before) (before.countP isOrdinal) s).or (nearest? before)

/-- The position of a specifier behind others, which are listed backwards. -/
def position? (before : List Specifier) (s : Specifier) : Option Nat :=
  positionBehind (nearest? before) (before.countP isOrdinal) s

/-- The positions and kinds of the specifiers that have a position, of specifiers that
are listed backwards. -/
def placed : List Specifier → List (Nat × Kind)
  | [] => []
  | s :: before => placed before ++ ((position? before s).map fun p => (p, s.kind)).toList

/-- The references of a format to argument positions, from left to right. -/
def placements (t : Text) : List (Nat × Kind) := placed (Specifier.scan t).reverse

/-! ## Slots -/

/-- One more than the largest position of some references. -/
def slotCount (refs : List (Nat × Kind)) : Nat := (refs.map fun r => r.1 + 1).foldl max 0

def kindsAt (refs : List (Nat × Kind)) (position : Nat) : List Kind :=
  (refs.filter fun r => r.1 = position).map Prod.snd

/-- The kind of all members, if there are any and they agree. -/
def common? : List Kind → Option Kind
  | [] => none
  | k :: ks => if ks.all (· = k) then some k else none

/-- The type set of a position: the kind that all references to it share, or any value. -/
def typeAt (refs : List (Nat × Kind)) (position : Nat) : TypeSet :=
  ((common? (kindsAt refs position)).map TypeSet.single).getD .universal

/-- The slot of a position, which is free if no reference leads to it. -/
def slotAt (refs : List (Nat × Kind)) (position : Nat) : Option TypeSet :=
  if kindsAt refs position = [] then none else some (typeAt refs position)

def slots (refs : List (Nat × Kind)) : List (Option TypeSet) :=
  (List.range (slotCount refs)).map (slotAt refs)

theorem common?_eq_some_iff {ks : List Kind} {k : Kind} :
    common? ks = some k ↔ ks ≠ [] ∧ ∀ l ∈ ks, l = k := by
  cases ks with
  | nil => simp [common?]
  | cons j ks =>
      by_cases h : ∀ l ∈ ks, l = j
      · have hall : ks.all (· = j) = true := by simpa using h
        rw [common?, if_pos hall, Option.some.injEq]
        constructor
        · rintro rfl
          simpa using h
        · intro hk
          exact hk.2 j List.mem_cons_self
      · have hall : ¬ks.all (· = j) = true := by simpa using h
        rw [common?, if_neg hall]
        refine ⟨by simp, fun hk => absurd (fun l hl => ?_) h⟩
        rw [hk.2 l (List.mem_cons_of_mem j hl), hk.2 j List.mem_cons_self]

theorem common?_concat {ks : List Kind} (hks : ks ≠ []) (k : Kind) :
    ((common? (ks ++ [k])).map TypeSet.single).getD .universal =
      (((common? ks).map TypeSet.single).getD .universal).retain (.single k) := by
  cases hj : common? ks with
  | none =>
      have hnone : common? (ks ++ [k]) = none := by
        rw [Option.eq_none_iff_forall_ne_some] at hj ⊢
        intro l hl
        obtain ⟨-, hall⟩ := common?_eq_some_iff.mp hl
        exact hj l (common?_eq_some_iff.mpr ⟨hks, fun i hi => hall i (List.mem_append_left _ hi)⟩)
      rw [hnone]
      exact (TypeSet.universal_retain_single k).symm
  | some j =>
      obtain ⟨-, hall⟩ := common?_eq_some_iff.mp hj
      rw [Option.map_some, Option.getD_some, TypeSet.retain_single]
      by_cases hjk : j = k
      · have hsome : common? (ks ++ [k]) = some j := by
          refine common?_eq_some_iff.mpr ⟨by simp, fun l hl => ?_⟩
          rcases List.mem_append.mp hl with hl | hl
          · exact hall l hl
          · rw [List.mem_singleton.mp hl, hjk]
        rw [hsome, if_pos hjk]
        rfl
      · have hnone : common? (ks ++ [k]) = none := by
          rw [Option.eq_none_iff_forall_ne_some]
          intro l hl
          obtain ⟨-, hall'⟩ := common?_eq_some_iff.mp hl
          obtain ⟨i, hi⟩ := List.exists_mem_of_ne_nil ks hks
          apply hjk
          rw [← hall i hi, hall' i (List.mem_append_left _ hi),
            hall' k (List.mem_append_right _ (List.mem_singleton_self k))]
        rw [hnone, if_neg hjk]
        rfl

theorem kindsAt_concat (refs : List (Nat × Kind)) (p : Nat) (k : Kind) (i : Nat) :
    kindsAt (refs ++ [(p, k)]) i = kindsAt refs i ++ if i = p then [k] else [] := by
  by_cases h : i = p
  · simp [kindsAt, h]
  · simp [kindsAt, h, Ne.symm h]

theorem slotCount_concat (refs : List (Nat × Kind)) (p : Nat) (k : Kind) :
    slotCount (refs ++ [(p, k)]) = max (slotCount refs) (p + 1) := by
  simp [slotCount]

theorem slotAt_concat (refs : List (Nat × Kind)) (p : Nat) (k : Kind) (i : Nat) :
    slotAt (refs ++ [(p, k)]) i =
      if i = p then
        match slotAt refs i with
        | some s => some (s.retain (.single k))
        | none => some (.single k)
      else slotAt refs i := by
  by_cases hi : i = p
  · have hkinds : kindsAt (refs ++ [(p, k)]) i = kindsAt refs i ++ [k] := by
      rw [kindsAt_concat, if_pos hi]
    have hne : kindsAt (refs ++ [(p, k)]) i ≠ [] := by simp [hkinds]
    rw [if_pos hi, slotAt, if_neg hne, typeAt, hkinds, slotAt]
    by_cases hnil : kindsAt refs i = []
    · rw [if_pos hnil, hnil]
      rfl
    · rw [if_neg hnil, common?_concat hnil]
      rfl
  · have hkinds : kindsAt (refs ++ [(p, k)]) i = kindsAt refs i := by
      rw [kindsAt_concat, if_neg hi, List.append_nil]
    rw [if_neg hi, slotAt, slotAt, typeAt, typeAt, hkinds]

theorem lt_slotCount {refs : List (Nat × Kind)} {r : Nat × Kind} (h : r ∈ refs) :
    r.1 < slotCount refs := by
  induction refs using List.reverseRecOn with
  | nil => simp at h
  | append_singleton refs s ih =>
      rw [slotCount_concat]
      rcases List.mem_append.mp h with h | h
      · exact Nat.lt_of_lt_of_le (ih h) (Nat.le_max_left _ _)
      · rw [List.mem_singleton.mp h]
        exact Nat.lt_of_lt_of_le (Nat.lt_succ_self _) (Nat.le_max_right _ _)

theorem slotAt_of_le {refs : List (Nat × Kind)} {i : Nat} (h : slotCount refs ≤ i) :
    slotAt refs i = none := by
  have hnil : kindsAt refs i = [] := by
    rw [kindsAt, List.map_eq_nil_iff, List.filter_eq_nil_iff]
    intro r hr hri
    have hlt := lt_slotCount hr
    rw [of_decide_eq_true hri] at hlt
    omega
  rw [slotAt, if_pos hnil]

theorem narrow_slots (refs : List (Nat × Kind)) (p : Nat) (k : Kind) :
    narrow (slots refs) p k = slots (refs ++ [(p, k)]) := by
  have hgrown : slots refs ++ List.replicate (p + 1 - (slots refs).length) none =
      (List.range (max (slotCount refs) (p + 1))).map (slotAt refs) := by
    have hsum : max (slotCount refs) (p + 1) = slotCount refs + (p + 1 - slotCount refs) := by
      omega
    rw [hsum, List.range_add, List.map_append, slots, List.length_map, List.length_range]
    congr 1
    rw [eq_comm, List.eq_replicate_iff]
    refine ⟨by simp, fun s hs => ?_⟩
    obtain ⟨i, hi, rfl⟩ := List.mem_map.mp hs
    obtain ⟨j, -, rfl⟩ := List.mem_map.mp hi
    exact slotAt_of_le (Nat.le_add_right _ _)
  have hp : (List.range (max (slotCount refs) (p + 1)))[p]? = some p :=
    List.getElem?_range (by omega)
  rw [narrow, hgrown, Lists.map_modify List.nodup_range hp, slots, slotCount_concat]
  refine List.map_congr_left fun i _ => ?_
  exact (slotAt_concat refs p k i).symm

/-! ## Reading a format -/

theorem take_slots (refs : List (Nat × Kind)) (last : Option Nat) (next p : Nat) (k : Kind) :
    Progress.take ⟨slots refs, last, next⟩ p k = ⟨slots (refs ++ [(p, k)]), some p, next⟩ := by
  rw [Progress.take, narrow_slots]

/-- One specifier takes its position, if it has one, and counts if it is ordinal. -/
theorem step_slots (refs : List (Nat × Kind)) (last : Option Nat) (next : Nat) (s : Specifier) :
    (s.addressing?.map fun a => (a, s.kind)).toList.foldl Progress.step ⟨slots refs, last, next⟩ =
      ⟨slots (refs ++ ((positionBehind last next s).map fun p => (p, s.kind)).toList),
        (positionBehind last next s).or last, next + if isOrdinal s then 1 else 0⟩ := by
  unfold Specifier.addressing? positionBehind isOrdinal
  cases hlit : Specifier.isLiteral s.conversion with
  | true => simp [Progress.step]
  | false =>
      cases hindex : s.index with
      | none =>
          cases hflag : s.flags.contains '<' with
          | true => cases last <;> simp [Progress.step, take_slots]
          | false => simp [Progress.step, take_slots]
      | some digits =>
          cases hn : Nat.ofDigitChars 10 digits 0 with
          | zero => simp [Progress.step, take_slots, hn]
          | succ n =>
              by_cases hlt : n < positionLimit
              · have hle : n + 1 ≤ positionLimit := hlt
                simp [Progress.step, take_slots, hn, hlt, hle]
              · have hle : ¬n + 1 ≤ positionLimit := hlt
                simp [hn, hlt, hle]

/-- What is known after some specifiers, which are listed backwards. -/
theorem foldl_step (before : List Specifier) :
    (before.reverse.filterMap fun s => s.addressing?.map fun a => (a, s.kind)).foldl
        Progress.step .start =
      ⟨slots (placed before), nearest? before, before.countP isOrdinal⟩ := by
  induction before with
  | nil => rfl
  | cons s before ih =>
      rw [List.reverse_cons, List.filterMap_append, List.foldl_append, ih]
      have hlast : ([s].filterMap fun s => s.addressing?.map fun a => (a, s.kind)) =
          (s.addressing?.map fun a => (a, s.kind)).toList := by
        cases h : s.addressing? <;> simp [h]
      rw [hlast, step_slots, List.countP_cons]
      rfl

theorem resolve_eq_slots (t : Text) :
    resolve t = (slots (placements t)).map (·.getD .universal) := by
  have h := foldl_step (Specifier.scan t).reverse
  rw [List.reverse_reverse] at h
  rw [resolve, Specifier.references, h]
  rfl

/-- The types of a format follow from the positions of its specifiers, which are the
leftmost matches of the grammar. -/
theorem resolve_eq_typeAt (t : Text) :
    (∀ ss, Specifier.grammar.Matches t ss ↔ ss = Specifier.scan t) ∧
      resolve t = (List.range (slotCount (placements t))).map (typeAt (placements t)) := by
  refine ⟨fun ss => Specifier.matches_grammar_iff, ?_⟩
  rw [resolve_eq_slots, slots, List.map_map]
  refine List.map_congr_left fun i _ => ?_
  rw [Function.comp_apply, slotAt]
  by_cases h : kindsAt (placements t) i = []
  · rw [if_pos h, typeAt, h]
    rfl
  · rw [if_neg h]
    rfl

end Conversion
end ResourceBundles
