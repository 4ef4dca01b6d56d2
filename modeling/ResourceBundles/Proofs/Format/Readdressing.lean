import Mathlib.Data.List.Perm.Basic
import ResourceBundles.Proofs.Format.Positions
import ResourceBundles.Proofs.Format.Writing

/-!
# Formats with explicit positions

A specifier finds its argument by its index, by the specifiers before it or by a reference
to the nearest of them.  Once every specifier has its position as its index, none depends
on another, and the types of the format do not depend on their order.
-/

namespace ResourceBundles

namespace Specifier

def isNumber (t : Text) : Bool := t != [] && t.all Char.isDigit

def isProper (s : Specifier) : Bool :=
  s.index.all isNumber && s.flags.all isFlag && s.width.all Char.isDigit &&
    s.precision.all isNumber && s.dateMark.all isDateMark && isConversion s.conversion &&
    (s.dateMark.isSome || !isDateMark s.conversion)

theorem isNumber_iff {t : Text} : isNumber t = true ↔ IsNumber t := by
  simp [isNumber, IsNumber]

theorem proper_of_isProper {s : Specifier} (h : s.isProper = true) : s.Proper := by
  simp only [isProper, Bool.and_eq_true, Option.all_eq_true, List.all_eq_true] at h
  obtain ⟨⟨⟨⟨⟨⟨hindex, hflags⟩, hwidth⟩, hprecision⟩, hmark⟩, hconversion⟩, hunmarked⟩ := h
  constructor
  · exact fun ds hds => isNumber_iff.mp (hindex ds hds)
  · exact fun c hc => List.contains_iff_mem.mp (hflags c hc)
  · exact hwidth
  · exact fun ds hds => isNumber_iff.mp (hprecision ds hds)
  · exact fun c hc => by simpa [isDateMark] using hmark c hc
  · simpa [isConversion] using hconversion
  · intro hnone
    simpa [hnone, isDateMark] using hunmarked

/-- The specifier with its position written in front. -/
def withIndex (s : Specifier) (position : Nat) : Specifier :=
  { s with index := some (Text.decimal (position + 1)) }

end Specifier

namespace Conversion

open Specifier

variable {refs refs' : List (Nat × Kind)} {before : List Specifier} {s : Specifier}
  {a : Nat × Specifier} {t u : Text}

/-! ## The order of references -/

theorem common?_perm {ks ls : List Kind} (h : ks.Perm ls) : common? ks = common? ls := by
  refine Option.ext fun k => ?_
  have hnil : ks = [] ↔ ls = [] := by
    rw [← List.length_eq_zero_iff, h.length_eq, List.length_eq_zero_iff]
  rw [common?_eq_some_iff, common?_eq_some_iff, ne_eq, ne_eq, hnil]
  refine and_congr_right fun _ => forall_congr' fun l => ?_
  rw [h.mem_iff]

theorem typeAt_perm (h : refs.Perm refs') (position : Nat) :
    typeAt refs position = typeAt refs' position := by
  have hkinds : (kindsAt refs position).Perm (kindsAt refs' position) := (h.filter _).map _
  rw [typeAt, typeAt, common?_perm hkinds]

theorem slotCount_perm (h : refs.Perm refs') : slotCount refs = slotCount refs' :=
  (h.map _).foldl_eq 0

/-- Formats that refer to the same positions for the same kinds have the same types, in
whatever order they do it. -/
theorem resolve_eq_of_perm (h : (placements t).Perm (placements u)) : resolve t = resolve u := by
  rw [(resolve_eq_typeAt t).2, (resolve_eq_typeAt u).2, slotCount_perm h]
  exact List.map_congr_left fun i _ => typeAt_perm h i

/-! ## The positions of written specifiers -/

/-- The specifiers that have a position, each behind its position, of specifiers that are
listed backwards. -/
def positioned : List Specifier → List (Nat × Specifier)
  | [] => []
  | s :: before => positioned before ++ ((position? before s).map fun p => (p, s)).toList

theorem placed_eq_map (before : List Specifier) :
    placed before = (positioned before).map fun a => (a.1, a.2.kind) := by
  induction before with
  | nil => rfl
  | cons s before ih =>
      rw [placed, positioned, List.map_append, ih]
      cases position? before s <;> rfl

theorem not_isLiteral_of_mem_positioned (h : a ∈ positioned before) :
    isLiteral a.2.conversion = false := by
  induction before with
  | nil => exact absurd h List.not_mem_nil
  | cons s before ih =>
      rcases List.mem_append.mp h with h | h
      · exact ih h
      · obtain ⟨p, hp, rfl⟩ := Option.map_eq_some_iff.mp (Option.mem_toList.mp h)
        by_contra hliteral
        rw [Bool.not_eq_false] at hliteral
        simp [position?, positionBehind, hliteral] at hp

/-- The specifiers of a written format that take an argument, each behind its position. -/
def takers (pieces : List Piece) : List (Nat × Specifier) := positioned (specifiers pieces).reverse

theorem isOrdinal_regrouped (h : s.Proper) : isOrdinal s.regrouped = isOrdinal s := by
  simp only [isOrdinal, contains_flags_regrouped h]
  rfl

theorem positionBehind_regrouped (h : s.Proper) (nearest : Option Nat) (ordinals : Nat) :
    positionBehind nearest ordinals s.regrouped = positionBehind nearest ordinals s := by
  simp only [positionBehind, contains_flags_regrouped h]
  rfl

theorem countP_isOrdinal_regrouped (h : ∀ s ∈ before, s.Proper) :
    (before.map regrouped).countP isOrdinal = before.countP isOrdinal := by
  rw [List.countP_map]
  exact List.countP_congr fun s hs => by rw [Function.comp_apply, isOrdinal_regrouped (h s hs)]

theorem nearest?_regrouped (h : ∀ s ∈ before, s.Proper) :
    nearest? (before.map regrouped) = nearest? before := by
  induction before with
  | nil => rfl
  | cons s before ih =>
      obtain ⟨hs, hbefore⟩ := List.forall_mem_cons.mp h
      rw [List.map_cons, nearest?, nearest?, positionBehind_regrouped hs, ih hbefore,
        countP_isOrdinal_regrouped hbefore]

theorem placed_regrouped (h : ∀ s ∈ before, s.Proper) :
    placed (before.map regrouped) = placed before := by
  induction before with
  | nil => rfl
  | cons s before ih =>
      obtain ⟨hs, hbefore⟩ := List.forall_mem_cons.mp h
      rw [List.map_cons, placed, placed, position?, position?, positionBehind_regrouped hs,
        ih hbefore, nearest?_regrouped hbefore, countP_isOrdinal_regrouped hbefore]
      rfl

theorem placements_render (pieces : List Piece) :
    placements (render pieces) = placed (specifiers pieces).reverse := by
  rw [placements, ← matches_grammar_iff.mp (matches_render pieces), ← List.map_reverse]
  apply placed_regrouped
  intro s hs
  exact proper_of_mem_specifiers (List.mem_reverse.mp hs)

/-! ## Explicit positions -/

/-- The specifier has a position as its index, which counts from 1, and it formats the kind
of value that a given one formats.  Flags, width and precision are free. -/
structure Readdresses (a : Nat × Specifier) (s : Specifier) : Prop where
  index : ∃ ds ∈ s.index, Nat.ofDigitChars 10 ds 0 = a.1 + 1
  dateMark : s.dateMark = a.2.dateMark
  conversion : s.conversion = a.2.conversion

theorem forall₂_withIndex (as : List (Nat × Specifier)) :
    List.Forall₂ Readdresses as (as.map fun a => a.2.withIndex a.1) := by
  rw [List.forall₂_map_right_iff, List.forall₂_same]
  intro a _
  refine ⟨⟨Text.decimal (a.1 + 1), rfl, ?_⟩, rfl, rfl⟩
  exact Nat.ofDigitChars_toDigits (by decide) (by decide)

theorem Readdresses.kind (h : Readdresses a s) : s.kind = a.2.kind := by
  rw [Specifier.kind, Specifier.kind, h.dateMark, h.conversion]

theorem Readdresses.positionBehind_eq (h : Readdresses a s) (hlimit : a.1 < positionLimit)
    (hliteral : isLiteral a.2.conversion = false) (nearest : Option Nat) (ordinals : Nat) :
    positionBehind nearest ordinals s = some a.1 := by
  obtain ⟨ds, hds, hn⟩ := h.index
  have hindex : s.index = some ds := hds
  have hle : a.1 + 1 ≤ positionLimit := hlimit
  simp [positionBehind, h.conversion, hliteral, hindex, hn, hle]

/-- Explicit positions do not depend on what stands before them.  Both lists are listed
backwards. -/
theorem placed_readdressed {as : List (Nat × Specifier)} {written : List Specifier}
    (hlimit : ∀ a ∈ as, a.1 < positionLimit) (hliteral : ∀ a ∈ as, isLiteral a.2.conversion = false)
    (h : List.Forall₂ Readdresses as written) :
    placed written = (as.map fun a => (a.1, a.2.kind)).reverse := by
  induction h with
  | nil => rfl
  | @cons a s as written hs _ ih =>
      obtain ⟨halimit, hlimit⟩ := List.forall_mem_cons.mp hlimit
      obtain ⟨haliteral, hliteral⟩ := List.forall_mem_cons.mp hliteral
      rw [placed, position?, hs.positionBehind_eq halimit haliteral, ih hlimit hliteral,
        List.map_cons, List.reverse_cons, Option.map_some, hs.kind]
      rfl

/-- A format in which every specifier that takes an argument writes the position of it, in
whatever order and between whatever texts, has the types of the format that it is made
from, as long as no position is beyond the limit. -/
theorem resolve_readdressed {pieces pieces' : List Piece} {written : List Specifier}
    (hlimit : ∀ a ∈ takers pieces, a.1 < positionLimit)
    (hwritten : List.Forall₂ Readdresses (takers pieces) written)
    (hperm : written.Perm (specifiers pieces')) :
    resolve (render pieces') = resolve (render pieces) := by
  have hbackwards : written.Perm (specifiers pieces').reverse :=
    hperm.trans (List.reverse_perm _).symm
  have hcomp : Relation.Comp (List.Forall₂ Readdresses) List.Perm (takers pieces)
      (specifiers pieces').reverse := ⟨written, hwritten, hbackwards⟩
  -- The order changes first, so that positions and specifiers stand side by side.
  rw [List.forall₂_comp_perm_eq_perm_comp_forall₂] at hcomp
  obtain ⟨as, has, hforall⟩ := hcomp
  apply resolve_eq_of_perm
  have hplaced : placements (render pieces') = (as.map fun a => (a.1, a.2.kind)).reverse := by
    rw [placements_render]
    apply placed_readdressed _ _ hforall
    · exact fun a ha => hlimit a (has.mem_iff.mpr ha)
    · exact fun a ha => not_isLiteral_of_mem_positioned (has.mem_iff.mpr ha)
  rw [hplaced, placements_render, placed_eq_map]
  exact (List.reverse_perm _).trans (has.symm.map _)

/-- Specifiers of every addressing, and one that takes no argument. -/
def mixedPieces : List Piece := [
  .specifier ⟨some "2", "", "", none, none, 'd'⟩ (proper_of_isProper rfl),
  .fixed ", " (by decide),
  .specifier ⟨none, "<", "", none, none, 'x'⟩ (proper_of_isProper rfl),
  .specifier ⟨none, "", "", none, none, '%'⟩ (proper_of_isProper rfl),
  .specifier ⟨none, "", "", none, none, 'b'⟩ (proper_of_isProper rfl),
  .specifier ⟨none, "", "5", none, none, 's'⟩ (proper_of_isProper rfl),
  .specifier ⟨some "3", "", "", none, some 't', 'Y'⟩ (proper_of_isProper rfl)]

def indexedPieces : List Piece := [
  .specifier ⟨some "2", "<", "", none, none, 'x'⟩ (proper_of_isProper rfl),
  .specifier ⟨some "3", "", "", none, some 't', 'Y'⟩ (proper_of_isProper rfl),
  .specifier ⟨some "2", "", "5", none, none, 's'⟩ (proper_of_isProper rfl),
  .fixed "; " (by decide),
  .specifier ⟨some "2", "", "", none, none, 'd'⟩ (proper_of_isProper rfl),
  .specifier ⟨some "1", "", "", none, none, 'b'⟩ (proper_of_isProper rfl)]

theorem resolve_indexedPieces :
    render mixedPieces = "%2$d, %<x%%%b%5s%3$tY".toList ∧
      render indexedPieces = "%2$<x%3$tY%2$5s; %2$d%1$b".toList ∧
      (∀ a ∈ takers mixedPieces, a.1 < positionLimit) ∧
      List.Forall₂ Readdresses (takers mixedPieces)
        ((takers mixedPieces).map fun a => a.2.withIndex a.1) ∧
      ((takers mixedPieces).map fun a => a.2.withIndex a.1).Perm (specifiers indexedPieces) ∧
      resolve (render indexedPieces) = resolve (render mixedPieces) := by
  have hlimit : ∀ a ∈ takers mixedPieces, a.1 < positionLimit := by decide +kernel
  have hindexed := forall₂_withIndex (takers mixedPieces)
  have hperm : ((takers mixedPieces).map fun a => a.2.withIndex a.1).Perm
      (specifiers indexedPieces) := by decide +kernel
  exact ⟨rfl, rfl, hlimit, hindexed, hperm, resolve_readdressed hlimit hindexed hperm⟩

end Conversion
end ResourceBundles
