import Mathlib.Data.List.Forall2
import ResourceBundles.Proofs.Format.Grammar

/-!
# Writing conversion formats

A conversion format is written from fixed texts without percent signs and from
specifiers, every part of a specifier as a text of its own.  Reading a written format
finds its specifiers again, one by one, except that zeros in front of a width are taken
for flags.  The argument of a specifier and the kind of its value do not depend on
these zeros.
-/

namespace ResourceBundles

namespace Specifier

def IsNumber (t : Text) : Prop := t ≠ [] ∧ ∀ c ∈ t, c.isDigit = true

/-- Every part of the specifier is of the form in which such a part is written. -/
structure Proper (s : Specifier) : Prop where
  index : ∀ ds ∈ s.index, IsNumber ds
  flags : ∀ c ∈ s.flags, c ∈ ['-', '#', '+', ' ', '0', ',', '(', '<']
  width : ∀ c ∈ s.width, c.isDigit = true
  precision : ∀ ds ∈ s.precision, IsNumber ds
  dateMark : ∀ c ∈ s.dateMark, c = 't' ∨ c = 'T'
  conversion : s.conversion.isAlpha = true ∨ s.conversion = '%'
  unmarked : s.dateMark = none → s.conversion ≠ 't' ∧ s.conversion ≠ 'T'

def indexText (s : Specifier) : Text := s.index.elim [] (· ++ ['$'])

def precisionText (s : Specifier) : Text := s.precision.elim [] ('.' :: ·)

def conversionText (s : Specifier) : Text := s.dateMark.toList ++ [s.conversion]

/-- What is written behind the percent sign. -/
def body (s : Specifier) : Text :=
  s.indexText ++ (s.flags ++ (s.width ++ (s.precisionText ++ s.conversionText)))

def text (s : Specifier) : Text := '%' :: s.body

/-- The specifier as it is read: a width does not start with a zero. -/
def regrouped (s : Specifier) : Specifier :=
  { s with
    flags := s.flags ++ s.width.takeWhile isFlag
    width := s.width.dropWhile isFlag }

/-- The specifier asks for an argument that no format may have. -/
def IsDropped (s : Specifier) : Prop :=
  s.conversion ≠ '%' ∧ s.conversion ≠ 'n' ∧
    ∃ ds ∈ s.index, positionLimit < Nat.ofDigitChars 10 ds 0

instance (s : Specifier) : Decidable s.IsDropped :=
  inferInstanceAs (Decidable (_ ∧ _ ∧ _))

/-- How a specifier finds its argument, told from its parts. -/
inductive Addresses (s : Specifier) : Addressing → Prop
  | literal (hc : s.conversion = '%' ∨ s.conversion = 'n') : Addresses s .literal
  | zero {ds : Text} (hc : s.conversion ≠ '%' ∧ s.conversion ≠ 'n') (hi : s.index = some ds)
      (hn : Nat.ofDigitChars 10 ds 0 = 0) : Addresses s .ordinary
  | explicit {ds : Text} {n : Nat} (hc : s.conversion ≠ '%' ∧ s.conversion ≠ 'n')
      (hi : s.index = some ds) (hn : Nat.ofDigitChars 10 ds 0 = n + 1) (hlt : n < positionLimit) :
      Addresses s (.explicit n)
  | relative (hc : s.conversion ≠ '%' ∧ s.conversion ≠ 'n') (hi : s.index = none)
      (hf : '<' ∈ s.flags) : Addresses s .relative
  | ordinary (hc : s.conversion ≠ '%' ∧ s.conversion ≠ 'n') (hi : s.index = none)
      (hf : '<' ∉ s.flags) : Addresses s .ordinary

end Specifier

/-- The conversion characters of a kind.  A character of no kind in the list formats any
value, and dates and times have a mark instead. -/
def Kind.conversions : Kind → Text
  | .boolean => ['b', 'B']
  | .character => ['c', 'C']
  | .integer => ['d', 'o', 'x', 'X']
  | .floating => ['e', 'E', 'f', 'g', 'G', 'a', 'A']
  | .dateTime | .universal => []

namespace Specifier

/-- The kind of value that a specifier formats, told from its parts. -/
inductive Formats (s : Specifier) : Kind → Prop
  | dateTime (hm : s.dateMark ≠ none) : Formats s .dateTime
  | listed {k : Kind} (hm : s.dateMark = none) (hk : s.conversion ∈ k.conversions) : Formats s k
  | unlisted (hm : s.dateMark = none) (hk : ∀ k : Kind, s.conversion ∉ k.conversions) :
      Formats s .universal

variable {s : Specifier} {p : Char → Bool} {t u v : Text} {c : Char}

/-! ## One part in front of the next -/

theorem isFlag_of_isConversion (h : isConversion c = true) : isFlag c = false := by
  rw [Bool.eq_false_iff]
  intro hflag
  simp [isConversion_flag hflag] at h

theorem isDigit_of_isConversion (h : isConversion c = true) : c.isDigit = false := by
  rw [Bool.eq_false_iff]
  intro hdigit
  simp [isConversion_digit hdigit] at h

theorem takeWhile_stop (h : ∀ c ∈ u.head?, p c = false) : u.takeWhile p = [] := by
  cases u with
  | nil => rfl
  | cons c u => rw [List.takeWhile_cons_of_neg (by simp [h c rfl])]

theorem dropWhile_stop (h : ∀ c ∈ u.head?, p c = false) : u.dropWhile p = u := by
  cases u with
  | nil => rfl
  | cons c u => rw [List.dropWhile_cons_of_neg (by simp [h c rfl])]

theorem takeWhile_append_stop (h : ∀ c ∈ u.head?, p c = false) :
    (t ++ u).takeWhile p = t.takeWhile p := by
  induction t with
  | nil => exact takeWhile_stop h
  | cons c t ih => rw [List.cons_append, List.takeWhile_cons, List.takeWhile_cons, ih]

theorem dropWhile_append_stop (h : ∀ c ∈ u.head?, p c = false) :
    (t ++ u).dropWhile p = t.dropWhile p ++ u := by
  induction t with
  | nil => exact dropWhile_stop h
  | cons c t ih =>
      rw [List.cons_append, List.dropWhile_cons, List.dropWhile_cons, ih]
      split <;> rfl

theorem readIndex_number {ds : Text} (h : IsNumber ds) (u : Text) :
    readIndex (ds ++ '$' :: u) = (some ds, u) := by
  obtain ⟨hne, hds⟩ := h
  obtain ⟨d, ds, rfl⟩ := List.exists_cons_of_ne_nil hne
  have htake : ((d :: ds) ++ '$' :: u).takeWhile Char.isDigit = d :: ds := by
    rw [List.takeWhile_append_of_pos hds]
    simp
  have hdrop : ((d :: ds) ++ '$' :: u).dropWhile Char.isDigit = '$' :: u := by
    rw [List.dropWhile_append_of_pos hds]
    simp
  simp only [readIndex, htake, hdrop]

/-- Where a character that is no digit comes before any dollar sign, no index is read. -/
theorem readIndex_none (ht : '$' ∉ t) (hc : c.isDigit = false) (hd : c ≠ '$') :
    readIndex (t ++ c :: u) = (none, t ++ c :: u) := by
  rcases readIndex_cases (t ++ c :: u) with ⟨ds, v, hds, heq, -, -⟩ | ⟨hread, -⟩
  · exfalso
    rcases List.append_eq_append_iff.mp heq with ⟨a, rfl, ha⟩ | ⟨a, rfl, ha⟩
    · cases a with
      | nil => exact hd (List.cons.inj ha).1
      | cons e a =>
          obtain ⟨rfl, -⟩ := List.cons.inj ha
          simp [hds c (by simp)] at hc
    · cases a with
      | nil => exact hd (List.cons.inj ha).1.symm
      | cons e a =>
          obtain ⟨rfl, -⟩ := List.cons.inj ha
          exact ht (by simp)
  · exact hread

theorem readPrecision_number {ds : Text} (h : IsNumber ds) (hu : ∀ c ∈ u.head?, c.isDigit = false) :
    readPrecision ('.' :: (ds ++ u)) = (some ds, u) := by
  obtain ⟨hne, hds⟩ := h
  have htake : (ds ++ u).takeWhile Char.isDigit = ds := by
    rw [List.takeWhile_append_of_pos hds, takeWhile_stop hu, List.append_nil]
  have hdrop : (ds ++ u).dropWhile Char.isDigit = u := by
    rw [List.dropWhile_append_of_pos hds, dropWhile_stop hu]
  obtain ⟨d, ds, rfl⟩ := List.exists_cons_of_ne_nil hne
  simp only [readPrecision, htake, hdrop]

theorem readPrecision_none (hu : ∀ c ∈ u.head?, c ≠ '.') : readPrecision u = (none, u) := by
  cases u with
  | nil => rfl
  | cons c u =>
      have hc : c ≠ '.' := hu c rfl
      simp [readPrecision, hc]

namespace Proper

theorem isFlag (h : s.Proper) : ∀ c ∈ s.flags, isFlag c = true := fun c hc =>
  List.contains_iff_mem.mpr (h.flags c hc)

theorem isConversion (h : s.Proper) : isConversion s.conversion = true := by
  simpa [Specifier.isConversion] using h.conversion

theorem readConversion (h : s.Proper) (rest : Text) :
    readConversion (s.conversionText ++ rest) = some (s.dateMark, s.conversion, rest) := by
  have hconversion := h.isConversion
  cases hmark : s.dateMark with
  | some m =>
      have hm : isDateMark m = true := by simpa [isDateMark] using h.dateMark m hmark
      simp [conversionText, hmark, Specifier.readConversion, hm, hconversion]
  | none =>
      have hm : isDateMark s.conversion = false := by simpa [isDateMark] using h.unmarked hmark
      cases rest <;>
        simp [conversionText, hmark, Specifier.readConversion, hm, hconversion]

/-- The conversion, or the mark in front of it, is neither a digit nor a flag, and it is
neither a point nor a dollar sign. -/
theorem head?_conversionText (h : s.Proper) (rest : Text) :
    ∀ c ∈ (s.conversionText ++ rest).head?, Specifier.isConversion c = true := by
  intro c hc
  cases hmark : s.dateMark with
  | some m =>
      obtain rfl : m = c := by simpa [conversionText, hmark] using hc
      apply isConversion_of_isDateMark
      simpa [isDateMark] using h.dateMark m hmark
  | none =>
      obtain rfl : s.conversion = c := by simpa [conversionText, hmark] using hc
      exact h.isConversion

/-- Whatever a part may not start with does not start the next part either. -/
theorem stop_precisionText (h : s.Proper) {p : Char → Bool} (hpoint : p '.' = false)
    (hp : ∀ c, Specifier.isConversion c = true → p c = false) (rest : Text) :
    ∀ c ∈ (s.precisionText ++ (s.conversionText ++ rest)).head?, p c = false := by
  cases hprecision : s.precision with
  | none =>
      intro c hc
      rw [precisionText, hprecision] at hc
      exact hp c (h.head?_conversionText rest c hc)
  | some ds => simp [precisionText, hprecision, hpoint]

theorem readPrecision (h : s.Proper) (rest : Text) :
    readPrecision (s.precisionText ++ (s.conversionText ++ rest)) =
      (s.precision, s.conversionText ++ rest) := by
  have hhead := h.head?_conversionText rest
  cases hprecision : s.precision with
  | none =>
      rw [precisionText, hprecision]
      apply readPrecision_none
      rintro c hc rfl
      exact absurd (hhead '.' hc) (by decide)
  | some ds =>
      rw [precisionText, hprecision]
      apply readPrecision_number (h.precision ds hprecision)
      exact fun c hc => isDigit_of_isConversion (hhead c hc)

/-- No part but the index holds a dollar sign. -/
theorem dollar_not_mem (h : s.Proper) :
    '$' ∉ s.flags ++ (s.width ++ (s.precisionText ++ s.dateMark.toList)) := by
  intro hmem
  simp only [List.mem_append] at hmem
  rcases hmem with hmem | hmem | hmem | hmem
  · exact absurd (h.flags _ hmem) (by decide)
  · exact absurd (h.width _ hmem) (by decide)
  · cases hprecision : s.precision with
    | none => simp [precisionText, hprecision] at hmem
    | some ds =>
        have hds : '$' ∈ ds := by simpa [precisionText, hprecision] using hmem
        exact absurd ((h.precision ds hprecision).2 _ hds) (by decide)
  · have hmark : '$' = 't' ∨ '$' = 'T' := h.dateMark _ (Option.mem_toList.mp hmem)
    exact absurd hmark (by decide)

theorem readIndex (h : s.Proper) (rest : Text) :
    readIndex (s.body ++ rest) =
      (s.index, s.flags ++ (s.width ++ (s.precisionText ++ (s.conversionText ++ rest)))) := by
  cases hindex : s.index with
  | some ds =>
      have hbody : s.body ++ rest = ds ++ '$' ::
          (s.flags ++ (s.width ++ (s.precisionText ++ (s.conversionText ++ rest)))) := by
        simp [body, indexText, hindex]
      rw [hbody, readIndex_number (h.index ds hindex)]
  | none =>
      have hbody : s.body ++ rest =
          (s.flags ++ (s.width ++ (s.precisionText ++ s.dateMark.toList))) ++
            s.conversion :: rest := by
        simp [body, indexText, conversionText, hindex]
      have hdollar : s.conversion ≠ '$' := by
        intro hc
        exact absurd h.isConversion (by rw [hc]; decide)
      rw [hbody, readIndex_none h.dollar_not_mem (isDigit_of_isConversion h.isConversion) hdollar]
      simp [conversionText]

end Proper

/-- A written specifier is read back in front of any text. -/
theorem read?_body (h : s.Proper) (rest : Text) :
    read? (s.body ++ rest) = some (s.regrouped, rest) := by
  let tail := s.precisionText ++ (s.conversionText ++ rest)
  have hflag : ∀ c ∈ tail.head?, isFlag c = false :=
    h.stop_precisionText (by decide) (fun c hc => isFlag_of_isConversion hc) rest
  have hdigit : ∀ c ∈ tail.head?, c.isDigit = false :=
    h.stop_precisionText (by decide) (fun c hc => isDigit_of_isConversion hc) rest
  have hwidth : ∀ c ∈ s.regrouped.width, c.isDigit = true := fun c hc =>
    h.width c ((List.dropWhile_suffix _).subset hc)
  have htakeFlags : (s.flags ++ (s.width ++ tail)).takeWhile isFlag = s.regrouped.flags := by
    rw [List.takeWhile_append_of_pos h.isFlag, takeWhile_append_stop hflag]
    rfl
  have hdropFlags : (s.flags ++ (s.width ++ tail)).dropWhile isFlag =
      s.regrouped.width ++ tail := by
    rw [List.dropWhile_append_of_pos h.isFlag, dropWhile_append_stop hflag]
    rfl
  have htakeWidth : (s.regrouped.width ++ tail).takeWhile Char.isDigit = s.regrouped.width := by
    rw [List.takeWhile_append_of_pos hwidth, takeWhile_stop hdigit, List.append_nil]
  have hdropWidth : (s.regrouped.width ++ tail).dropWhile Char.isDigit = tail := by
    rw [List.dropWhile_append_of_pos hwidth, dropWhile_stop hdigit]
  simp only [read?, h.readIndex, htakeFlags, hdropFlags, htakeWidth, hdropWidth, tail,
    h.readPrecision, h.readConversion]
  rfl

example : read? "007d" = some (⟨none, "00", "7", none, none, 'd'⟩, []) := by decide +kernel

/-! ## Arguments and kinds -/

theorem contains_flags_regrouped (h : s.Proper) :
    s.regrouped.flags.contains '<' = s.flags.contains '<' := by
  have hzeros : '<' ∉ s.width.takeWhile isFlag := by
    intro hmem
    exact absurd (h.width _ ((List.takeWhile_prefix _).subset hmem)) (by decide)
  rw [Bool.eq_iff_iff]
  simp [regrouped, hzeros]

theorem addressing?_regrouped (h : s.Proper) : s.regrouped.addressing? = s.addressing? := by
  simp only [addressing?, contains_flags_regrouped h]
  rfl

theorem isLiteral_iff : isLiteral c = true ↔ c = '%' ∨ c = 'n' := by simp [isLiteral]

/-- A specifier has a usable index or is dropped, and it finds its argument by its parts. -/
theorem addressing?_cases (s : Specifier) :
    (s.addressing? = none ∧ s.IsDropped) ∨
      ∃ a, s.addressing? = some a ∧ s.Addresses a ∧ ¬s.IsDropped := by
  by_cases hc : s.conversion = '%' ∨ s.conversion = 'n'
  · refine .inr ⟨.literal, by simp [addressing?, isLiteral_iff.mpr hc], .literal hc, ?_⟩
    exact fun h => hc.elim h.1 h.2.1
  have hliteral : isLiteral s.conversion = false := by
    rw [Bool.eq_false_iff, ne_eq, isLiteral_iff]
    exact hc
  rw [not_or] at hc
  cases hi : s.index with
  | none =>
      have hkept : ¬s.IsDropped := by simp [IsDropped, hi]
      by_cases hf : '<' ∈ s.flags
      · exact .inr ⟨.relative, by simp [addressing?, hliteral, hi, hf], .relative hc hi hf, hkept⟩
      · exact .inr ⟨.ordinary, by simp [addressing?, hliteral, hi, hf], .ordinary hc hi hf, hkept⟩
  | some ds =>
      cases hn : Nat.ofDigitChars 10 ds 0 with
      | zero =>
          refine .inr ⟨.ordinary, by simp [addressing?, hliteral, hi, hn], .zero hc hi hn, ?_⟩
          simp [IsDropped, hi, hn]
      | succ n =>
          by_cases hlt : n < positionLimit
          · refine .inr ⟨.explicit n, by simp [addressing?, hliteral, hi, hn, hlt],
              .explicit hc hi hn hlt, ?_⟩
            rintro ⟨-, -, ds', hds', hover⟩
            obtain rfl : ds = ds' := Option.some.inj (hi.symm.trans hds')
            rw [hn] at hover
            exact Nat.lt_irrefl _ (Nat.lt_of_lt_of_le hover hlt)
          · refine .inl ⟨by simpa [addressing?, hliteral, hi, hn] using hlt, hc.1, hc.2, ds, hi, ?_⟩
            rw [hn]
            exact Nat.lt_succ_of_le (Nat.le_of_not_lt hlt)

theorem family_of_mem {k : Kind} (h : c ∈ k.conversions) : family c = k := by
  have hall : k.conversions.all (fun c => family c = k) = true := by cases k <;> decide
  simpa using List.all_eq_true.mp hall c h

theorem mem_conversions_family (h : family c ≠ .universal) : c ∈ (family c).conversions := by
  revert h
  unfold family
  split <;> simp [Kind.conversions]

theorem family_of_not_mem (h : ∀ k : Kind, c ∉ k.conversions) : family c = .universal := by
  by_contra hne
  exact h _ (mem_conversions_family hne)

theorem formats_kind (s : Specifier) : s.Formats s.kind := by
  cases hm : s.dateMark with
  | some m =>
      rw [kind, hm]
      exact .dateTime (by simp [hm])
  | none =>
      have hkind : s.kind = family s.conversion := by rw [kind, hm]; rfl
      rw [hkind]
      by_cases hlisted : ∃ k : Kind, s.conversion ∈ k.conversions
      · obtain ⟨k, hk⟩ := hlisted
        rw [family_of_mem hk]
        exact .listed hm hk
      · rw [family_of_not_mem (not_exists.mp hlisted)]
        exact .unlisted hm (not_exists.mp hlisted)

end Specifier

namespace Conversion

/-- A part of a conversion format. -/
inductive Piece where
  | fixed (t : Text) (plain : '%' ∉ t)
  | specifier (s : Specifier) (proper : s.Proper)

namespace Piece

def text : Piece → Text
  | fixed t _ => t
  | specifier s _ => s.text

def specifier? : Piece → Option Specifier
  | fixed .. => none
  | specifier s _ => some s

end Piece

def render (pieces : List Piece) : Text := pieces.flatMap Piece.text

/-- The specifiers of a written format, as they are written. -/
def specifiers (pieces : List Piece) : List Specifier := pieces.filterMap Piece.specifier?

open Specifier

theorem proper_of_mem_specifiers {pieces : List Piece} {s : Specifier}
    (hs : s ∈ specifiers pieces) : s.Proper := by
  obtain ⟨piece, -, hpiece⟩ := List.mem_filterMap.mp hs
  cases piece with
  | fixed t plain => cases hpiece
  | specifier s' proper =>
      cases hpiece
      exact proper

theorem matches_fixed {t u : Text} {ss : List Specifier} (ht : '%' ∉ t)
    (hu : grammar.Matches u ss) : grammar.Matches (t ++ u) ss := by
  induction t with
  | nil => exact hu
  | cons c t ih =>
      rw [List.mem_cons, not_or] at ht
      exact .miss (grammar_eq_nil (Ne.symm ht.1) _) (ih ht.2)

theorem matches_render (pieces : List Piece) :
    grammar.Matches (render pieces) ((specifiers pieces).map regrouped) := by
  induction pieces with
  | nil => exact .done
  | cons piece pieces ih =>
      rw [render, List.flatMap_cons, ← render]
      cases piece with
      | fixed t plain => exact matches_fixed plain ih
      | specifier s proper =>
          refine .hit ?_ ih
          rw [head?_grammar]
          exact read?_body proper _

/-- The written specifiers whose argument can be had yield one reference each. -/
theorem forall₂_references {ss : List Specifier} (hss : ∀ s ∈ ss, s.Proper) :
    List.Forall₂ (fun s r => s.Addresses r.1 ∧ s.Formats r.2)
      (ss.filter fun s => ¬s.IsDropped)
      ((ss.map regrouped).filterMap fun s => s.addressing?.map fun a => (a, s.kind)) := by
  induction ss with
  | nil => exact .nil
  | cons s ss ih =>
      have hrest := ih fun s' hs' => hss s' (List.mem_cons_of_mem s hs')
      have hread := addressing?_regrouped (hss s List.mem_cons_self)
      rw [List.map_cons]
      rcases s.addressing?_cases with ⟨ha, hdropped⟩ | ⟨a, ha, haddresses, hkept⟩
      · rw [List.filter_cons_of_neg (by simpa using hdropped),
          List.filterMap_cons_none (by rw [hread, ha]; rfl)]
        exact hrest
      · rw [List.filter_cons_of_pos (by simpa using hkept),
          List.filterMap_cons_some (by rw [hread, ha]; rfl)]
        exact .cons ⟨haddresses, s.formats_kind⟩ hrest

/-- Reading a written format finds exactly its specifiers, from left to right, and each
of them is a reference to an argument, unless its index is too large. -/
theorem references_render (pieces : List Piece) :
    grammar.Matches (render pieces) ((specifiers pieces).map regrouped) ∧
      List.Forall₂ (fun s r => s.Addresses r.1 ∧ s.Formats r.2)
        ((specifiers pieces).filter fun s => ¬s.IsDropped) (references (render pieces)) := by
  have hmatches := matches_render pieces
  refine ⟨hmatches, ?_⟩
  rw [references, ← matches_grammar_iff.mp hmatches]
  exact forall₂_references fun s hs => proper_of_mem_specifiers hs

end Conversion
end ResourceBundles
