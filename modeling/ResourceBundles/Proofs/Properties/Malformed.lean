import ResourceBundles.Proofs.Properties.Spelling

/-!
# Malformed escapes

The escape of a unit is malformed if four hexadecimal digits do not follow its `u`.  Nothing else
makes a text unreadable: reading fails exactly if a key or a value holds a malformed escape, on
the first line with one, and at the key if it is in the key.
-/

namespace ResourceBundles.Properties

/-- A malformed escape in front of the end of a text: a backslash that no other one escapes, a
`u`, and no four digits behind it. -/
def MalformedBefore (raw after : Text) : Prop :=
  ∃ before, raw = before ++ '\\' :: 'u' :: after ∧ Even (trailingBackslashes before) ∧
    ¬StartsWithUnit after

def Malformed (raw : Text) : Prop := ∃ after, MalformedBefore raw after

/-- The key or the value of a line, still escaped. -/
def LogicalLine.raw (line : LogicalLine) : Side → Text
  | .key => (splitEntry line.text).1
  | .value => (splitEntry line.text).2

variable {raw after t : Text} {escaped : Bool} {c : Char}

/-! ## Escapes from left to right -/

/-- A malformed escape in a text whose first character a backslash in front of it may escape. -/
def MalformedFrom (escaped : Bool) (raw after : Text) : Prop :=
  ∃ before, raw = before ++ '\\' :: 'u' :: after ∧ before.foldl escapes escaped = false ∧
    ¬StartsWithUnit after

theorem malformedBefore_iff : MalformedBefore raw after ↔ MalformedFrom false raw after := by
  simp only [MalformedBefore, MalformedFrom, ← isContinued_eq_false_iff, isContinued_eq_foldl]

theorem not_malformedFrom_nil : ¬MalformedFrom escaped [] after := by
  rintro ⟨before, hsplit, -⟩
  simp at hsplit

theorem malformedFrom_cons :
    MalformedFrom escaped (c :: t) after ↔
      escaped = false ∧ c = '\\' ∧ t = 'u' :: after ∧ ¬StartsWithUnit after ∨
        MalformedFrom (escapes escaped c) t after := by
  constructor
  · rintro ⟨before, hsplit, heven, hdigits⟩
    cases before with
    | nil =>
        obtain ⟨rfl, rfl⟩ := List.cons.inj hsplit
        exact .inl ⟨heven, rfl, rfl, hdigits⟩
    | cons d before =>
        obtain ⟨rfl, rfl⟩ := List.cons.inj hsplit
        exact .inr ⟨before, rfl, heven, hdigits⟩
  · rintro (⟨rfl, rfl, rfl, hdigits⟩ | ⟨before, rfl, heven, hdigits⟩)
    · exact ⟨[], rfl, rfl, hdigits⟩
    · exact ⟨c :: before, rfl, heven, hdigits⟩

theorem malformedFrom_raw (hc : c ≠ '\\') :
    MalformedFrom escaped (c :: t) after ↔ MalformedFrom false t after := by
  simp [malformedFrom_cons, escapes_of_ne hc, hc]

theorem malformedFrom_escape (hc : c ≠ 'u') :
    MalformedFrom false ('\\' :: c :: t) after ↔ MalformedFrom false t after := by
  simp [malformedFrom_cons, escapes, hc]

theorem malformedFrom_unit {a b c d : Char} (h : [a, b, c, d].all Text.isHexDigit = true) :
    MalformedFrom false ('\\' :: 'u' :: a :: b :: c :: d :: t) after ↔
      MalformedFrom false t after := by
  have hne : ∀ e ∈ [a, b, c, d], e ≠ '\\' := fun e he =>
    isHexDigit_ne (List.all_eq_true.mp h e he) (by decide)
  rw [malformedFrom_cons, malformedFrom_raw (by decide), malformedFrom_raw (hne a (by simp)),
    malformedFrom_raw (hne b (by simp)), malformedFrom_raw (hne c (by simp)),
    malformedFrom_raw (hne d (by simp))]
  refine or_iff_right ?_
  rintro ⟨-, -, heq, hdigits⟩
  obtain rfl := (List.cons.inj heq).2
  exact hdigits (startsWithUnit_cons.mpr h)

/-- By induction over the escapes of the text, whatever units are pending. -/
theorem unescapeFrom_malformedFrom (raw : Text) (pending : List UInt16) :
    match unescapeFrom pending raw with
    | .ok _ => ∀ after, ¬MalformedFrom false raw after
    | .error found => ∃ after, MalformedFrom false raw after ∧ found = after.take 4 := by
  induction raw using escape_induction generalizing pending with
  | nil => exact fun after => not_malformedFrom_nil
  | lone =>
      rw [unescapeFrom_lone]
      intro after
      simp [malformedFrom_cons, not_malformedFrom_nil]
  | unit a b c d t hhex ih =>
      simp only [unescapeFrom_unit hhex, malformedFrom_unit hhex]
      exact ih _
  | malformed t hdigits =>
      rw [unescapeFrom_malformed hdigits]
      exact ⟨t, ⟨[], rfl, rfl, hdigits⟩, rfl⟩
  | escape c t hc ih =>
      simp only [unescapeFrom_escape hc, malformedFrom_escape hc]
      have hrest := ih []
      cases h : unescapeFrom [] t <;> rw [h] at hrest <;> exact hrest
  | raw c t hc ih =>
      simp only [unescapeFrom_raw hc, malformedFrom_raw hc]
      have hrest := ih []
      cases h : unescapeFrom [] t <;> rw [h] at hrest <;> exact hrest

/-! ## Keys and values -/

theorem exists_unescape_iff : (∃ r, unescape raw = .ok r) ↔ ¬Malformed raw := by
  have h := unescapeFrom_malformedFrom raw []
  simp only [Malformed, malformedBefore_iff, unescape]
  cases hraw : unescapeFrom [] raw with
  | ok r =>
      rw [hraw] at h
      simpa using h
  | error found =>
      rw [hraw] at h
      obtain ⟨after, hafter, -⟩ := h
      simpa using ⟨after, hafter⟩

theorem of_unescape_eq_error {found : Text} (h : unescape raw = .error found) :
    ∃ after, MalformedBefore raw after ∧ found = after.take 4 := by
  have hmalformed := unescapeFrom_malformedFrom raw []
  rw [← unescape, h] at hmalformed
  simpa only [malformedBefore_iff] using hmalformed

theorem exists_readEntry_iff {line : LogicalLine} :
    (∃ entry, readEntry line = .ok entry) ↔ ∀ side, ¬Malformed (line.raw side) := by
  have hsides : (∀ side, ¬Malformed (line.raw side)) ↔
      (∃ key, unescape (line.raw .key) = .ok key) ∧
        ∃ value, unescape (line.raw .value) = .ok value := by
    rw [exists_unescape_iff, exists_unescape_iff]
    refine ⟨fun h => ⟨h .key, h .value⟩, fun h side => ?_⟩
    cases side with
    | key => exact h.1
    | value => exact h.2
  rw [hsides]
  simp only [readEntry, readSide, LogicalLine.raw]
  cases unescape (splitEntry line.text).1 with
  | error found => simp
  | ok key => cases unescape (splitEntry line.text).2 <;> simp

/-- An error of a line is at its key if the key is malformed, and shows what stands in place of
the digits. -/
theorem of_readEntry_eq_error {line : LogicalLine} {e : EntryError}
    (h : readEntry line = .error e) :
    e.line = line.number ∧ (e.side = .key ↔ Malformed (line.raw .key)) ∧
      ∃ after, MalformedBefore (line.raw e.side) after ∧ e.found = after.take 4 := by
  simp only [readEntry, readSide] at h
  cases hkey : unescape (line.raw .key) with
  | error found =>
      rw [LogicalLine.raw] at hkey
      rw [hkey] at h
      obtain rfl := Except.error.inj h
      obtain ⟨after, hafter, hfound⟩ := of_unescape_eq_error hkey
      exact ⟨rfl, ⟨fun _ => ⟨after, hafter⟩, fun _ => rfl⟩, after, hafter, hfound⟩
  | ok key =>
      have hnot : ¬Malformed (line.raw .key) := exists_unescape_iff.mp ⟨key, hkey⟩
      rw [LogicalLine.raw] at hkey
      rw [hkey] at h
      cases hvalue : unescape (splitEntry line.text).2 with
      | ok value =>
          simp [hvalue] at h
      | error found =>
          rw [hvalue] at h
          obtain rfl := Except.error.inj h
          refine ⟨rfl, ⟨fun hside => Side.noConfusion hside, fun hside => absurd hside hnot⟩, ?_⟩
          exact of_unescape_eq_error hvalue

/-! ## Texts -/

theorem readEntries_eq_error_iff {lines : List LogicalLine} {e : EntryError} :
    readEntries lines = .error e ↔ ∃ done line rest, lines = done ++ line :: rest ∧
      (∀ l ∈ done, ∃ entry, readEntry l = .ok entry) ∧ readEntry line = .error e := by
  induction lines with
  | nil => simp [readEntries]
  | cons l lines ih =>
      rw [readEntries]
      constructor
      · intro h
        cases hl : readEntry l with
        | error e' =>
            rw [hl] at h
            obtain rfl := Except.error.inj h
            exact ⟨[], l, lines, rfl, by simp, hl⟩
        | ok entry =>
            cases hrest : readEntries lines with
            | ok es =>
                simp [hl, hrest, Except.map] at h
            | error e' =>
                rw [hl, hrest] at h
                obtain rfl := Except.error.inj h
                obtain ⟨done, line, rest, rfl, hdone, hline⟩ := ih.mp hrest
                refine ⟨l :: done, line, rest, rfl, ?_, hline⟩
                exact List.forall_mem_cons.mpr ⟨⟨entry, hl⟩, hdone⟩
      · rintro ⟨done, line, rest, hsplit, hdone, hline⟩
        cases done with
        | nil =>
            obtain ⟨rfl, rfl⟩ := List.cons.inj hsplit
            rw [hline]
        | cons m done =>
            obtain ⟨rfl, hlines⟩ := List.cons.inj hsplit
            obtain ⟨⟨entry, hl⟩, hdone⟩ := List.forall_mem_cons.mp hdone
            rw [hl, ih.mpr ⟨done, line, rest, hlines, hdone, hline⟩]
            rfl

theorem parse_eq_error_iff {e : EntryError} :
    parse t = .error e ↔ readEntries (logicalLines t) = .error e := by
  rw [parse]
  cases readEntries (logicalLines t) <;> simp [Except.map]

theorem exists_readEntries_eq_error {lines : List LogicalLine} {line : LogicalLine} {side : Side}
    (hline : line ∈ lines) (h : Malformed (line.raw side)) : ∃ e, readEntries lines = .error e := by
  induction lines with
  | nil => simp at hline
  | cons l lines ih =>
      rw [readEntries]
      cases hl : readEntry l with
      | error e => exact ⟨e, rfl⟩
      | ok entry =>
          rcases List.mem_cons.mp hline with rfl | hline
          · exact absurd h (exists_readEntry_iff.mp ⟨entry, hl⟩ side)
          · obtain ⟨e, he⟩ := ih hline
            exact ⟨e, by rw [he]; rfl⟩

/-- A text cannot be read if and only if a key or a value of its lines is malformed.  The error
is on the first such line, at the key if that is malformed and else at the value. -/
theorem parse_fails_iff (t : Text) :
    ((∃ e, parse t = .error e) ↔
        ∃ line ∈ logicalLines t, ∃ side, Malformed (line.raw side)) ∧
      ∀ e, parse t = .error e → ∃ done line rest, logicalLines t = done ++ line :: rest ∧
        (∀ l ∈ done, ∀ side, ¬Malformed (l.raw side)) ∧ e.line = line.number ∧
        (e.side = .key ↔ Malformed (line.raw .key)) ∧
        ∃ after, MalformedBefore (line.raw e.side) after ∧ e.found = after.take 4 := by
  have herror : ∀ e, parse t = .error e → ∃ done line rest,
      logicalLines t = done ++ line :: rest ∧ (∀ l ∈ done, ∀ side, ¬Malformed (l.raw side)) ∧
        readEntry line = .error e := by
    intro e he
    obtain ⟨done, line, rest, hlines, hdone, hline⟩ :=
      readEntries_eq_error_iff.mp (parse_eq_error_iff.mp he)
    exact ⟨done, line, rest, hlines, fun l hl => exists_readEntry_iff.mp (hdone l hl), hline⟩
  refine ⟨⟨?_, ?_⟩, ?_⟩
  · rintro ⟨e, he⟩
    obtain ⟨done, line, rest, hlines, -, hline⟩ := herror e he
    obtain ⟨-, -, after, hafter, -⟩ := of_readEntry_eq_error hline
    exact ⟨line, by simp [hlines], e.side, after, hafter⟩
  · rintro ⟨line, hline, side, hside⟩
    obtain ⟨e, he⟩ := exists_readEntries_eq_error hline hside
    exact ⟨e, parse_eq_error_iff.mpr he⟩
  · intro e he
    obtain ⟨done, line, rest, hlines, hdone, hline⟩ := herror e he
    exact ⟨done, line, rest, hlines, hdone, of_readEntry_eq_error hline⟩

end ResourceBundles.Properties
