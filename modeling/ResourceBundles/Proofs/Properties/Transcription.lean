import ResourceBundles.Proofs.Properties.Joining

/-!
# Texts in ASCII

Characters outside ASCII can be written as the escapes of their units.  Such an escape is no
line end, no blank, no sign and no end of a line that goes on, and it stands where a backslash
escapes nothing, so the text falls into the same lines, keys and values.  The units of a
character are decoded to it whatever units stand next to them.
-/

namespace ResourceBundles.Properties

/-- Behind a given text, some characters outside ASCII are written as the escapes of their units.
An odd number of backslashes stands in front of none of them. -/
inductive TranscriptionBehind : Text → Text → Text → Prop
  | nil {before : Text} : TranscriptionBehind before [] []
  | keep {before t u : Text} {c : Char} (h : TranscriptionBehind (before ++ [c]) t u) :
      TranscriptionBehind before (c :: t) (c :: u)
  | escape {before t u v : Text} {c : Char} (hc : 0x7F < c.toNat)
      (heven : Even (trailingBackslashes before)) (hv : UnitEscapes (Utf16.units c) v)
      (h : TranscriptionBehind (before ++ [c]) t u) :
      TranscriptionBehind before (c :: t) (v ++ u)

/-- The same, told whether a backslash in front escapes the first character. -/
inductive Transcription : Bool → Text → Text → Prop
  | nil {escaped : Bool} : Transcription escaped [] []
  | keep {escaped : Bool} {t u : Text} {c : Char} (h : Transcription (escapes escaped c) t u) :
      Transcription escaped (c :: t) (c :: u)
  | escape {t u v : Text} {c : Char} (hc : 0x7F < c.toNat)
      (hv : UnitEscapes (Utf16.units c) v) (h : Transcription false t u) :
      Transcription false (c :: t) (v ++ u)

variable {before t u t' u' v : Text} {c : Char} {escaped : Bool}

/-! ## Characters outside ASCII -/

theorem ne_of_outside {d : Char} (hc : 0x7F < c.toNat) (hd : d.toNat ≤ 0x7F) : c ≠ d := by
  rintro rfl
  omega

theorem escapes_of_outside (hc : 0x7F < c.toNat) (escaped : Bool) : escapes escaped c = false :=
  escapes_of_ne (ne_of_outside hc (by decide)) escaped

theorem endsKey_of_outside (hc : 0x7F < c.toNat) : endsKey c = false := by
  have h : ∀ d : Char, d.toNat ≤ 0x7F → c ≠ d := fun d hd => ne_of_outside hc hd
  simp [endsKey, isSign, isBlank, h '=' (by decide), h ':' (by decide), h ' ' (by decide),
    h '\t' (by decide), h '\x0c' (by decide)]

theorem isBlank_of_endsKey (h : endsKey c = false) : isBlank c = false :=
  (Bool.or_eq_false_iff.mp h).2

theorem isSign_of_endsKey (h : endsKey c = false) : isSign c = false :=
  (Bool.or_eq_false_iff.mp h).1

theorem exists_units_eq (hv : UnitEscapes (Utf16.units c) v) : ∃ w, v = '\\' :: w := by
  have hhead := head?_units hv []
  rw [List.append_nil] at hhead
  exact List.head?_eq_some_iff.mp hhead

theorem TranscriptionBehind.transcription (h : TranscriptionBehind before t u) :
    Transcription (isContinued before) t u := by
  induction h with
  | nil => exact .nil
  | keep _ ih =>
      rw [isContinued_concat] at ih
      exact .keep ih
  | escape hc heven hv _ ih =>
      rw [isContinued_concat, escapes_of_outside hc] at ih
      rw [isContinued_eq_false_iff.mpr heven]
      exact .escape hc hv ih

namespace Transcription

/-! ## Beginnings and ends -/

theorem keep_of_ne (hc : c ≠ '\\') (h : Transcription false t u) :
    Transcription escaped (c :: t) (c :: u) := by
  apply Transcription.keep
  rw [escapes_of_ne hc]
  exact h

theorem of_ascii (h : Transcription escaped (c :: t) u) (hc : c.toNat ≤ 0x7F) :
    ∃ u', u = c :: u' ∧ Transcription (escapes escaped c) t u' := by
  cases h with
  | keep h => exact ⟨_, rfl, h⟩
  | escape houtside => omega

/-- A backslash and the character that it escapes are kept. -/
theorem of_pair (h : Transcription false ('\\' :: c :: t) u) :
    ∃ u', u = '\\' :: c :: u' ∧ Transcription false t u' := by
  obtain ⟨u', rfl, hbehind⟩ := h.of_ascii (by decide)
  cases hbehind with
  | keep hrest =>
      rw [show escapes (escapes false '\\') c = false by simp [escapes]] at hrest
      exact ⟨_, rfl, hrest⟩

/-- A transcription that starts with no backslash keeps the first character. -/
theorem of_head_ne (h : Transcription escaped t (c :: u)) (hc : c ≠ '\\') :
    ∃ t', t = c :: t' ∧ Transcription false t' u := by
  generalize hw : c :: u = w at h
  cases h with
  | nil => simp at hw
  | keep h =>
      obtain ⟨rfl, rfl⟩ := List.cons.inj hw
      exact ⟨_, rfl, escapes_of_ne hc escaped ▸ h⟩
  | escape _ hv =>
      obtain ⟨w', rfl⟩ := exists_units_eq hv
      exact absurd (List.cons.inj hw).1 hc

theorem eq_nil_iff (h : Transcription escaped t u) : u = [] ↔ t = [] := by
  cases h with
  | nil => simp
  | keep => simp
  | escape _ hv =>
      obtain ⟨w, rfl⟩ := exists_units_eq hv
      simp

theorem append (h : Transcription escaped t u)
    (h' : Transcription (t.foldl escapes escaped) t' u') :
    Transcription escaped (t ++ t') (u ++ u') := by
  induction h with
  | nil => exact h'
  | keep _ ih => exact .keep (ih h')
  | @escape t u v c hc hv _ ih =>
      rw [List.foldl_cons, escapes_of_outside hc] at h'
      rw [List.append_assoc]
      exact .escape hc hv (ih h')

theorem foldl_escapes (h : Transcription escaped t u) :
    u.foldl escapes escaped = t.foldl escapes escaped := by
  induction h with
  | nil => rfl
  | keep _ ih => exact ih
  | @escape t u v c hc hv _ ih =>
      have hwhole : Whole (fun _ => True) v := hv.whole fun _ _ => trivial
      rw [List.foldl_append, hwhole.foldl_escapes, ih, List.foldl_cons,
        escapes_of_outside hc]

theorem isContinued_eq (h : Transcription false t u) : isContinued u = isContinued t := by
  rw [isContinued_eq_foldl, h.foldl_escapes, ← isContinued_eq_foldl]

/-- What a text that goes on ends in is a backslash, which is no part of an escape. -/
theorem dropLast (h : Transcription escaped t u) (hodd : t.foldl escapes escaped = true) :
    Transcription escaped t.dropLast u.dropLast := by
  induction h with
  | nil => exact .nil
  | @keep escaped t u c h ih =>
      by_cases ht : t = []
      -- The last character is the backslash that goes.
      · obtain rfl := h.eq_nil_iff.mpr ht
        rw [ht]
        exact .nil
      · rw [List.dropLast_cons_of_ne_nil ht, List.dropLast_cons_of_ne_nil (mt h.eq_nil_iff.mp ht)]
        exact .keep (ih hodd)
  | @escape t u v c hc hv h ih =>
      rw [List.foldl_cons, escapes_of_outside hc] at hodd
      have ht : t ≠ [] := by
        rintro rfl
        exact Bool.noConfusion hodd
      rw [List.dropLast_cons_of_ne_nil ht, List.dropLast_append_of_ne_nil (mt h.eq_nil_iff.mp ht)]
      exact .escape hc hv (ih hodd)

/-! ## Blanks, keys and values -/

theorem behind_blanks (h : Transcription false t u) :
    Transcription false (dropBlanks t) (dropBlanks u) := by
  induction t generalizing u with
  | nil =>
      obtain rfl := h.eq_nil_iff.mpr rfl
      exact .nil
  | cons c t ih =>
      cases h with
      | @keep _ _ u _ h =>
          by_cases hc : isBlank c = true
          · rw [escapes_of_ne (ne_backslash_of_isBlank hc)] at h
            have hdrop : ∀ w, dropBlanks (c :: w) = dropBlanks w :=
              fun w => List.dropWhile_cons_of_pos hc
            rw [hdrop, hdrop]
            exact ih h
          · have hdrop : ∀ w, dropBlanks (c :: w) = c :: w :=
              fun w => List.dropWhile_cons_of_neg hc
            rw [hdrop, hdrop]
            exact .keep h
      | @escape _ u v _ hc hv h =>
          obtain ⟨w, rfl⟩ := exists_units_eq hv
          have hblank := isBlank_of_endsKey (endsKey_of_outside hc)
          have ht : dropBlanks (c :: t) = c :: t :=
            List.dropWhile_cons_of_neg (by simp [hblank])
          have hu : dropBlanks ('\\' :: w ++ u) = '\\' :: w ++ u :=
            List.dropWhile_cons_of_neg (by decide)
          rw [ht, hu]
          exact .escape hc hv h

theorem isSkipped_eq (h : Transcription escaped t u) : isSkipped u = isSkipped t := by
  cases h with
  | nil => rfl
  | keep => rfl
  | @escape t u v c hc hv h =>
      obtain ⟨w, rfl⟩ := exists_units_eq hv
      have hhash : c ≠ '#' := ne_of_outside hc (by decide)
      have hbang : c ≠ '!' := ne_of_outside hc (by decide)
      simp [isSkipped, hhash, hbang]

theorem cut (h : Transcription escaped t u) :
    Transcription escaped (cutKey escaped t).1 (cutKey escaped u).1 ∧
      Transcription false (cutKey escaped t).2 (cutKey escaped u).2 := by
  induction h with
  | nil => exact ⟨.nil, .nil⟩
  | @keep escaped t u c h ih =>
      by_cases hc : c = '\\'
      · subst hc
        have hflip : escapes escaped '\\' = !escaped := by simp [escapes]
        rw [hflip] at ih
        simp only [cutKey, if_true]
        exact ⟨.keep (hflip ▸ ih.1), ih.2⟩
      rw [escapes_of_ne hc] at h ih
      by_cases hend : (!escaped && endsKey c) = true
      · simp only [cutKey, if_neg hc, if_pos hend]
        obtain ⟨hescaped, -⟩ := Bool.and_eq_true_iff.mp hend
        obtain rfl : escaped = false := by simpa using hescaped
        exact ⟨.nil, keep_of_ne hc h⟩
      · simp only [cutKey, if_neg hc, if_neg hend]
        exact ⟨keep_of_ne hc ih.1, ih.2⟩
  | @escape t u v c hc hv h ih =>
      have hwhole : Whole (fun c => endsKey c = false) v :=
        hv.whole fun _ => endsKey_of_isHexDigit
      have hcut : cutKey false (c :: t) =
          (c :: (cutKey false t).1, (cutKey false t).2) := by
        simp [cutKey, ne_of_outside hc (d := '\\') (by decide), endsKey_of_outside hc]
      rw [hcut, cutKey_whole hwhole]
      exact ⟨.escape hc hv ih.1, ih.2⟩

theorem behind_separator (h : Transcription false t u) :
    Transcription false (dropSeparator t) (dropSeparator u) := by
  have hdrop := h.behind_blanks
  rw [dropSeparator, dropSeparator]
  generalize dropBlanks t = t' at hdrop
  generalize dropBlanks u = u' at hdrop
  cases hdrop with
  | nil => exact .nil
  | @keep _ t u c h =>
      by_cases hc : isSign c = true
      · have hne : c ≠ '\\' := by
          rintro rfl
          exact absurd hc (by decide)
        rw [escapes_of_ne hne] at h
        simpa [hc] using h.behind_blanks
      · simpa [hc] using Transcription.keep h
  | @escape t u v c hc hv h =>
      have hsign := isSign_of_endsKey (endsKey_of_outside hc)
      have hescape := Transcription.escape hc hv h
      obtain ⟨w, rfl⟩ := exists_units_eq hv
      simpa [hsign, show isSign '\\' = false from rfl] using hescape

theorem sides (h : Transcription false t u) :
    Transcription false (splitEntry t).1 (splitEntry u).1 ∧
      Transcription false (splitEntry t).2 (splitEntry u).2 :=
  ⟨h.cut.1, h.cut.2.behind_separator⟩

/-! ## Escapes -/

theorem of_digits {ds : Text} (hds : ∀ d ∈ ds, Text.isHexDigit d = true)
    (h : Transcription false (ds ++ t) u) : ∃ u', u = ds ++ u' ∧ Transcription false t u' := by
  induction ds generalizing u with
  | nil => exact ⟨u, rfl, h⟩
  | cons d ds ih =>
      obtain ⟨hd, hds⟩ := List.forall_mem_cons.mp hds
      obtain ⟨w, rfl, hw⟩ := of_ascii h (toNat_le_of_isHexDigit hd)
      rw [escapes_of_ne (isHexDigit_ne hd (by decide))] at hw
      obtain ⟨u', rfl, hrest⟩ := ih hds hw
      exact ⟨u', rfl, hrest⟩

theorem of_transcribed_digits {ds : Text} (hds : ∀ d ∈ ds, Text.isHexDigit d = true)
    (h : Transcription false t (ds ++ u)) : ∃ t', t = ds ++ t' ∧ Transcription false t' u := by
  induction ds generalizing t with
  | nil => exact ⟨t, rfl, h⟩
  | cons d ds ih =>
      obtain ⟨hd, hds⟩ := List.forall_mem_cons.mp hds
      obtain ⟨w, rfl, hw⟩ := of_head_ne h (isHexDigit_ne hd (by decide))
      obtain ⟨t', rfl, hrest⟩ := ih hds hw
      exact ⟨t', rfl, hrest⟩

theorem startsWithUnit (h : Transcription false t u) (hu : StartsWithUnit u) :
    StartsWithUnit t := by
  obtain ⟨a, b, c, d, rest, rfl, hhex⟩ := hu.exists_eq
  obtain ⟨t', rfl, -⟩ := of_transcribed_digits (List.all_eq_true.mp hhex) h
  exact startsWithUnit_cons.mpr hhex

end Transcription

/-- Units of a character that are pending decode to it, between the units on both sides. -/
theorem unescapeFrom_units_pending (before : List UInt16) (c : Char) (pending : List UInt16)
    (t : Text) :
    unescapeFrom (before ++ (Utf16.units c ++ pending)) t =
      (unescapeFrom pending t).map fun r => Utf16.decode before ++ c :: r := by
  induction t using escape_induction generalizing pending with
  | nil => simp [unescapeFrom, Utf16.decode_append_units, Except.map]
  | lone => simp [unescapeFrom_lone, Utf16.decode_append_units, Except.map]
  | unit a b c' d t hhex ih =>
      rw [unescapeFrom_unit hhex, unescapeFrom_unit hhex, List.append_assoc, List.append_assoc, ih]
  | malformed t hdigits =>
      rw [unescapeFrom_malformed hdigits, unescapeFrom_malformed hdigits]
      rfl
  | escape d t hd _ =>
      rw [unescapeFrom_escape hd, unescapeFrom_escape hd, Utf16.decode_append_units]
      cases unescapeFrom [] t <;> simp [Except.map]
  | raw d t hd _ =>
      rw [unescapeFrom_raw hd, unescapeFrom_raw hd, Utf16.decode_append_units]
      cases unescapeFrom [] t <;> simp [Except.map]

/-- Results that are equal, or errors that are related. -/
inductive Alike {ε α : Type} (R : ε → ε → Prop) : Except ε α → Except ε α → Prop
  | ok (a : α) : Alike R (.ok a) (.ok a)
  | error {e e' : ε} (h : R e e') : Alike R (.error e) (.error e')

theorem Alike.map {ε α β : Type} {R : ε → ε → Prop} {x y : Except ε α} (h : Alike R x y)
    (f : α → β) : Alike R (x.map f) (y.map f) := by
  cases h with
  | ok a => exact .ok (f a)
  | error h => exact .error h

theorem Transcription.unescapeFrom (h : Transcription false t u) (pending : List UInt16) :
    Alike (fun _ _ => True) (unescapeFrom pending t) (unescapeFrom pending u) := by
  induction t using escape_induction generalizing u pending with
  | nil =>
      obtain rfl := h.eq_nil_iff.mpr rfl
      exact .ok _
  | lone =>
      obtain ⟨w, rfl, hw⟩ := h.of_ascii (by decide)
      obtain rfl := hw.eq_nil_iff.mpr rfl
      rw [unescapeFrom_lone]
      exact .ok _
  | unit a b c d t hhex ih =>
      obtain ⟨w, rfl, hw⟩ := h.of_pair
      obtain ⟨u', rfl, hrest⟩ := of_digits (List.all_eq_true.mp hhex) hw
      have hunit : ∀ w, Properties.unescapeFrom pending ('\\' :: 'u' :: ([a, b, c, d] ++ w)) =
          Properties.unescapeFrom (pending ++ [hexUnit [a, b, c, d]]) w :=
        unescapeFrom_unit hhex pending
      rw [unescapeFrom_unit hhex, hunit]
      exact ih hrest _
  | malformed t hdigits =>
      obtain ⟨w, rfl, hw⟩ := h.of_pair
      rw [unescapeFrom_malformed hdigits, unescapeFrom_malformed (mt hw.startsWithUnit hdigits)]
      exact .error trivial
  | escape c t hc ih =>
      obtain ⟨w, rfl, hw⟩ := h.of_pair
      rw [unescapeFrom_escape hc, unescapeFrom_escape hc]
      exact (ih hw []).map _
  | raw c t hc ih =>
      rw [unescapeFrom_raw hc]
      cases h with
      | keep h =>
          rw [escapes_of_ne hc] at h
          rw [unescapeFrom_raw hc]
          exact (ih h []).map _
      | escape _ hv h =>
          -- The character ends the pending units, and its own units are added to them.
          have hunits := unescapeFrom_units_pending pending c []
          rw [List.append_nil] at hunits
          rw [unescapeFrom_units hv, hunits]
          exact (ih h []).map _

/-! ## Natural lines -/

/-- The natural lines of a text and of a transcription of it. -/
inductive TranscribedLines (escaped : Bool) : List Text → List Text → Prop
  | nil : TranscribedLines escaped [] []
  | cons {l m : Text} {ls ms : List Text} (h : Transcription escaped l m)
      (hs : List.Forall₂ (Transcription false) ls ms) :
      TranscribedLines escaped (l :: ls) (m :: ms)

namespace TranscribedLines

variable {ls ms : List Text}

theorem forall₂ (h : TranscribedLines false ls ms) : List.Forall₂ (Transcription false) ls ms := by
  cases h with
  | nil => exact .nil
  | cons h hs => exact .cons h hs

theorem pushChar (h : TranscribedLines (escapes escaped c) ls ms) :
    TranscribedLines escaped (pushChar c ls) (pushChar c ms) := by
  cases h with
  | nil => exact .cons (.keep .nil) .nil
  | cons h hs => exact .cons (.keep h) hs

theorem pushEscape (h : TranscribedLines false ls ms) (hc : 0x7F < c.toNat)
    (hv : UnitEscapes (Utf16.units c) v) :
    TranscribedLines false (Properties.pushChar c ls) (v.foldr Properties.pushChar ms) := by
  cases h with
  | nil =>
      have hne : v ≠ [] := by
        obtain ⟨w, rfl⟩ := exists_units_eq hv
        exact List.cons_ne_nil _ w
      have hescape := Transcription.escape hc hv .nil
      rw [List.append_nil] at hescape
      rw [foldr_pushChar_nil hne]
      exact .cons hescape .nil
  | cons h hs =>
      rw [foldr_pushChar_cons]
      exact .cons (.escape hc hv h) hs

end TranscribedLines

theorem Transcription.naturalLines (h : Transcription escaped t u) :
    TranscribedLines escaped (naturalLines t) (naturalLines u) := by
  fun_induction Properties.naturalLines t generalizing escaped u with
  | case1 =>
      obtain rfl := h.eq_nil_iff.mpr rfl
      exact .nil
  | case2 t ih =>
      obtain ⟨w, rfl, hw⟩ := h.of_ascii (by decide)
      obtain ⟨u', rfl, hrest⟩ := hw.of_ascii (by decide)
      rw [naturalLines_crlf]
      exact .cons .nil (ih hrest).forall₂
  | case3 t ht ih =>
      obtain ⟨u', rfl, hrest⟩ := h.of_ascii (by decide)
      -- An escape starts with a backslash: a line feed that follows now has followed before.
      have hhead : u'.head? ≠ some '\n' := by
        intro hu
        obtain ⟨w, rfl⟩ := List.head?_eq_some_iff.mp hu
        obtain ⟨t', rfl, -⟩ := hrest.of_head_ne (by decide)
        exact ht t' rfl
      rw [naturalLines_cr hhead]
      exact .cons .nil (ih hrest).forall₂
  | case4 t ih =>
      obtain ⟨u', rfl, hrest⟩ := h.of_ascii (by decide)
      rw [naturalLines_lf]
      exact .cons .nil (ih hrest).forall₂
  | case5 c t _ hr hn ih =>
      have hr' : c ≠ '\r' := hr
      cases h with
      | keep h =>
          rw [naturalLines_cons hr' hn]
          exact (ih h).pushChar
      | escape hc hv h =>
          rw [naturalLines_append_foldr hv.oneLine]
          exact (ih h).pushEscape hc hv

/-! ## Logical lines -/

/-- The same logical line, whose text is transcribed. -/
def TranscribedLine (l m : LogicalLine) : Prop :=
  l.number = m.number ∧ Transcription false l.text m.text

variable {number : Nat} {open? open'? : Option LogicalLine} {natural natural' : Text}

theorem Transcription.extend? (hpending : Pending number open?)
    (hopen : Option.Rel TranscribedLine open? open'?) (h : Transcription false natural natural') :
    Option.Rel TranscribedLine (LogicalLine.extend? number open? natural)
      (LogicalLine.extend? number open'? natural') := by
  have hblanks := h.behind_blanks
  cases hopen with
  | none =>
      simp only [LogicalLine.extend?, hblanks.isSkipped_eq]
      split
      · exact .none
      · exact .some ⟨rfl, hblanks⟩
  | @some line line' hline =>
      have heven : line.text.foldl escapes false = false :=
        isContinued_eq_foldl line.text ▸ (hpending line rfl).2
      exact .some ⟨hline.1, hline.2.append (heven.symm ▸ hblanks)⟩

theorem Transcription.readLine (hpending : Pending number open?)
    (hopen : Option.Rel TranscribedLine open? open'?) (h : Transcription false natural natural') :
    List.Forall₂ TranscribedLine (readLine number open? natural).1
        (readLine number open'? natural').1 ∧
      Option.Rel TranscribedLine (Properties.readLine number open? natural).2
        (Properties.readLine number open'? natural').2 := by
  have hextend := h.extend? hpending hopen
  rw [Properties.readLine, Properties.readLine]
  generalize LogicalLine.extend? number open? natural = extended? at hextend
  generalize LogicalLine.extend? number open'? natural' = extended'? at hextend
  cases hextend with
  | none => exact ⟨.nil, .none⟩
  | @some line line' hline =>
      simp only [hline.2.isContinued_eq]
      cases hodd : isContinued line.text with
      | true =>
          rw [isContinued_eq_foldl] at hodd
          exact ⟨.nil, .some ⟨hline.1, hline.2.dropLast hodd⟩⟩
      | false => exact ⟨.cons hline .nil, .none⟩

theorem forall₂_logicalLinesFrom {ls ms : List Text} (hpending : Pending number open?)
    (hopen : Option.Rel TranscribedLine open? open'?)
    (h : List.Forall₂ (Transcription false) ls ms) :
    List.Forall₂ TranscribedLine (logicalLinesFrom number open? ls)
      (logicalLinesFrom number open'? ms) := by
  induction h generalizing number open? open'? with
  | nil =>
      cases hopen with
      | none => exact .nil
      | some hline => exact .cons hline .nil
  | @cons natural natural' ls ms hnatural _ ih =>
      obtain ⟨hdone, hopen'⟩ := hnatural.readLine hpending hopen
      rw [logicalLinesFrom_cons, logicalLinesFrom_cons]
      exact List.rel_append hdone (ih (readLine_spec hpending natural).1 hopen')

/-! ## Entries -/

def EntryError.SamePlace (e e' : EntryError) : Prop := e.side = e'.side ∧ e.line = e'.line

theorem readSide_alike (h : Transcription false t u) (side : Side) (line : Nat) :
    Alike EntryError.SamePlace (readSide side line t) (readSide side line u) := by
  have halike := h.unescapeFrom []
  rw [readSide, readSide, unescape, unescape]
  generalize unescapeFrom [] t = x at halike
  generalize unescapeFrom [] u = y at halike
  cases halike with
  | ok r => exact .ok r
  | error _ => exact .error ⟨rfl, rfl⟩

theorem readEntry_alike {l m : LogicalLine} (h : TranscribedLine l m) :
    Alike EntryError.SamePlace (readEntry l) (readEntry m) := by
  obtain ⟨hkey, hvalue⟩ := h.2.sides
  have hkeys := readSide_alike hkey .key l.number
  have hvalues := readSide_alike hvalue .value l.number
  rw [readEntry, readEntry, ← h.1]
  generalize readSide .key l.number (splitEntry l.text).1 = x at hkeys
  generalize readSide .key l.number (splitEntry m.text).1 = y at hkeys
  generalize readSide .value l.number (splitEntry l.text).2 = x' at hvalues
  generalize readSide .value l.number (splitEntry m.text).2 = y' at hvalues
  cases hkeys with
  | error hplace => exact .error hplace
  | ok key =>
      cases hvalues with
      | error hplace => exact .error hplace
      | ok value => exact .ok _

theorem readEntries_alike {ls ms : List LogicalLine} (h : List.Forall₂ TranscribedLine ls ms) :
    Alike EntryError.SamePlace (readEntries ls) (readEntries ms) := by
  induction h with
  | nil => exact .ok []
  | @cons l m ls ms hline _ ih =>
      have hentry := readEntry_alike hline
      rw [readEntries, readEntries]
      generalize readEntry l = x at hentry
      generalize readEntry m = y at hentry
      cases hentry with
      | error hplace => exact .error hplace
      | ok entry => exact ih.map _

/-- A text and a transcription of it define the same bundle, or both are malformed on the same
side of the same line. -/
theorem parse_transcription (h : TranscriptionBehind [] t u) :
    (∀ bundle, parse u = .ok bundle ↔ parse t = .ok bundle) ∧
      ∀ side line, (∃ found, parse u = .error ⟨side, line, found⟩) ↔
        ∃ found, parse t = .error ⟨side, line, found⟩ := by
  have hlines : List.Forall₂ TranscribedLine (logicalLines t) (logicalLines u) := by
    have hstart : Pending 1 none := by simp [Pending]
    exact forall₂_logicalLinesFrom hstart .none h.transcription.naturalLines.forall₂
  have halike := (readEntries_alike hlines).map Bundle.ofEntries
  rw [← parse, ← parse] at halike
  generalize parse t = x at halike
  generalize parse u = y at halike
  cases halike with
  | ok bundle => simp
  | @error e e' hplace =>
      obtain ⟨hside, hline⟩ := hplace
      refine ⟨by simp, fun side line => ?_⟩
      cases e
      cases e'
      simp_all

theorem TranscriptionBehind.keep_append {w : Text} (h : TranscriptionBehind (before ++ w) t u) :
    TranscriptionBehind before (w ++ t) (w ++ u) := by
  induction w generalizing before with
  | nil => simpa using h
  | cons c w ih =>
      apply TranscriptionBehind.keep
      apply ih
      simpa using h

/-- Characters in a comment, between two halves of other pairs and behind an escaped backslash. -/
theorem parse_transcription_halves :
    TranscriptionBehind [] "# é\n\\ud83d😀\\ude00=\\\\ü"
        "# \\u00e9\n\\ud83d\\uD83D\\uDE00\\ude00=\\\\\\u00FC" ∧
      parse "# \\u00e9\n\\ud83d\\uD83D\\uDE00\\ude00=\\\\\\u00FC" =
        .ok ⟨[⟨"\uFFFD😀\uFFFD", "\\ü", 2⟩], [("\uFFFD😀\uFFFD", 0)]⟩ := by
  have hcomment : UnitEscapes (Utf16.units 'é') "\\u00e9" := .cons (by decide) (by decide) .nil
  have hpair : UnitEscapes (Utf16.units '😀') "\\uD83D\\uDE00" :=
    .cons (by decide) (by decide) (.cons (by decide) (by decide) .nil)
  have hvalue : UnitEscapes (Utf16.units 'ü') "\\u00FC" := .cons (by decide) (by decide) .nil
  have h : TranscriptionBehind [] "# é\n\\ud83d😀\\ude00=\\\\ü"
      "# \\u00e9\n\\ud83d\\uD83D\\uDE00\\ude00=\\\\\\u00FC" :=
    .keep_append (w := "# ") (.escape (by decide) (by decide) hcomment
      (.keep_append (w := "\n\\ud83d") (.escape (by decide) (by decide) hpair
        (.keep_append (w := "\\ude00=\\\\") (.escape (by decide) (by decide) hvalue .nil)))))
  exact ⟨h, ((parse_transcription h).1 _).mpr rfl⟩

end ResourceBundles.Properties
