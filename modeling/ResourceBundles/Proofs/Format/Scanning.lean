import ResourceBundles.Format.Pattern
import Mathlib

/-!
# Scanning message patterns

Outside its placeholders a pattern is read one character at a time: the quotes read so
far say whether the next brace is quoted, and two quotes in a row are no exception.
Hence a pattern can be read in two parts.  The second part starts in the state that the
first one leaves, and the offsets of its errors count from the start of the whole.
-/

namespace ResourceBundles

namespace Placeholder

variable {p : Part} {depth : Nat} {quoted : Bool} {t : Text} {k : Cut}

/-- What a character makes of the number of open braces and of the quotation it stands in. -/
inductive Moves : Nat → Bool → Char → Nat → Bool → Prop
  | quote {depth : Nat} {quoted : Bool} : Moves depth quoted '\'' depth (!quoted)
  | quoted {depth : Nat} {c : Char} (hc : c ≠ '\'') : Moves depth true c depth true
  | char {depth d : Nat} {c : Char} (hc : c ≠ '\'')
      (hd : depth + [c].count '{' = d + [c].count '}') : Moves depth false c d false

theorem count_cons (c b : Char) (t : Text) : (c :: t).count b = [c].count b + t.count b := by
  rw [← List.singleton_append, List.count_append]

/-- A character ends the placeholder, or the placeholder goes on behind it; what
follows does not matter for that. -/
theorem cut_step (p : Part) (depth : Nat) (quoted : Bool) (c : Char) :
    (c = '}' ∧ depth = 0 ∧ quoted = false ∧ ∀ t, cut p depth quoted (c :: t) = some (.stop t)) ∨
      ∃ p' d q f, Moves depth quoted c d q ∧ (f = (Cut.push · p c) ∨ f = (Cut.skip · c)) ∧
        ∀ t, cut p depth quoted (c :: t) = (cut p' d q t).map f := by
  by_cases hquote : c = '\''
  · subst hquote
    refine .inr ⟨p.afterChar, depth, !quoted, _, .quote, .inl rfl, fun t => ?_⟩
    cases quoted <;> simp [cut]
  cases quoted with
  | true =>
      have hquoted : (c != '\'') = true := bne_iff_ne.mpr hquote
      refine .inr ⟨p.afterChar, depth, true, _, .quoted hquote, .inl rfl, fun t => ?_⟩
      simp [cut, hquoted]
  | false =>
      by_cases hcomma : c = ',' ∧ p ≠ .style
      · refine .inr ⟨p.afterComma, depth, false, _, .char hquote ?_, .inr rfl, fun t => ?_⟩
        · rw [hcomma.1]
          rfl
        · simp [cut, hcomma]
      by_cases hopen : c = '{'
      · refine .inr ⟨p.afterChar, depth + 1, false, _, .char hquote ?_, .inl rfl, fun t => ?_⟩
        · rw [hopen]
          rfl
        · simp [cut, hopen]
      by_cases hclose : c = '}'
      · cases depth with
        | zero => exact .inl ⟨hclose, rfl, rfl, fun t => by simp [cut, hclose]⟩
        | succ d =>
            refine .inr ⟨p.afterChar, d, false, _, .char hquote ?_, .inl rfl, fun t => ?_⟩
            · rw [hclose]
              rfl
            · simp [cut, hclose]
      have hd : depth + [c].count '{' = depth + [c].count '}' := by simp [hopen, hclose]
      by_cases hspace : c = ' ' ∧ p = .beforeType
      · exact .inr ⟨p, depth, false, _, .char hquote hd, .inr rfl, fun t => by simp [cut, hspace]⟩
      · have hquoted : (c == '\'') = false := beq_false_of_ne hquote
        refine .inr ⟨p.afterChar, depth, false, _, .char hquote hd, .inl rfl, fun t => ?_⟩
        simp [cut, hcomma, hopen, hclose, hspace, hquoted]

/-- What a placeholder takes is cut off in front of any other text as well. -/
theorem exists_consumed_of_cut (h : cut p depth quoted t = some k) :
    ∃ consumed, t = consumed ++ k.rest ∧ Text.utf8Length consumed = k.length ∧
      ∀ u, cut p depth quoted (consumed ++ u) = some { k with rest := u } := by
  induction t generalizing p depth quoted k with
  | nil => simp [cut] at h
  | cons c t ih =>
      rcases cut_step p depth quoted c with ⟨rfl, -, -, hstop⟩ | ⟨p', d, q, f, -, hf, hstep⟩
      · rw [hstop] at h
        obtain rfl := Option.some.inj h
        exact ⟨['}'], rfl, rfl, hstop⟩
      · rw [hstep] at h
        obtain ⟨k', hk', rfl⟩ := Option.map_eq_some_iff.mp h
        obtain ⟨consumed, rfl, hlength, hcut⟩ := ih hk'
        refine ⟨c :: consumed, ?_, ?_, fun u => ?_⟩
        · rcases hf with rfl | rfl <;> rfl
        · rw [Text.utf8Length_cons, hlength]
          rcases hf with rfl | rfl <;> rfl
        · rw [List.cons_append, hstep, hcut]
          rcases hf with rfl | rfl <;> rfl

theorem cut_append (h : cut p depth quoted t = some k) (u : Text) :
    cut p depth quoted (t ++ u) = some { k with rest := k.rest ++ u } := by
  obtain ⟨consumed, ht, -, hcut⟩ := exists_consumed_of_cut h
  rw [ht, List.append_assoc, hcut]

theorem length_add_rest_of_cut (h : cut p depth quoted t = some k) :
    k.length + Text.utf8Length k.rest = Text.utf8Length t := by
  obtain ⟨consumed, ht, hlength, -⟩ := exists_consumed_of_cut h
  rw [ht, Text.utf8Length_append, hlength]

end Placeholder

/-- The error of the same text behind `n` more bytes. -/
def PatternError.shift (n : Nat) : PatternError → PatternError
  | unmatchedBraces offset => unmatchedBraces (offset + n)
  | e => e

namespace Placeholder

/-- A fault in the parts of a placeholder is told without an offset. -/
theorem shift_of_readIndex {t : Text} {e : PatternError} (h : readIndex t = .error e) (n : Nat) :
    e.shift n = e := by
  unfold readIndex at h
  split at h
  · obtain rfl := Except.error.inj h
    rfl
  split at h
  · obtain rfl := Except.error.inj h
    rfl
  split at h
  · obtain rfl := Except.error.inj h
    rfl
  split at h
  · obtain rfl := Except.error.inj h
    rfl
  · cases h

theorem shift_of_ofSegments {s : Segments} {e : PatternError} (h : ofSegments s = .error e)
    (n : Nat) : e.shift n = e := by
  unfold ofSegments at h
  split at h
  next e' hindex =>
    obtain rfl := Except.error.inj h
    exact shift_of_readIndex hindex n
  split at h
  · obtain rfl := Except.error.inj h
    rfl
  split at h
  · obtain rfl := Except.error.inj h
    rfl
  · cases h

end Placeholder

namespace Pattern

open Placeholder (cut ofSegments)

variable {offset : Nat} {quoted : Bool} {t : Text}

/-! ## One step -/

/-- A quote opens or closes quoted text, whatever follows it.  Two quotes in a row do
both, which leaves everything as it was. -/
theorem placeholdersFrom_quote (offset : Nat) (quoted : Bool) (t : Text) :
    placeholdersFrom offset quoted ('\'' :: t) = placeholdersFrom (offset + 1) (!quoted) t := by
  induction t generalizing offset quoted with
  | nil => simp [placeholdersFrom]
  | cons c t ih =>
      by_cases hc : c = '\''
      · rw [hc, ih, Bool.not_not, placeholdersFrom]
      · rw [placeholdersFrom]
        simp [hc]

theorem placeholdersFrom_char {c : Char} (hquote : c ≠ '\'') (hopen : c = '{' → quoted = true)
    (offset : Nat) (t : Text) :
    placeholdersFrom offset quoted (c :: t) = placeholdersFrom (offset + c.utf8Size) quoted t := by
  rw [placeholdersFrom]
  · rw [if_neg]
    rintro ⟨rfl, hquoted⟩
    simp [hopen] at hquoted
  all_goals simp [hquote]

theorem placeholdersFrom_open (offset : Nat) (t : Text) :
    placeholdersFrom offset false ('{' :: t) =
      match cut .index 0 false t with
      | none => .error (.unmatchedBraces offset)
      | some k =>
        match ofSegments k.segments with
        | .error e => .error e
        | .ok p => (placeholdersFrom (offset + 1 + k.length) false k.rest).map (p :: ·) := by
  rw [placeholdersFrom]
  · simp only [and_self, if_true]
    split
    next hcut => simp only [hcut]
    next k hcut => cases hparts : ofSegments k.segments <;> simp only [hcut, hparts]
  all_goals simp

/-- What holds along the scan of a pattern, where two quotes in a row are two steps. -/
@[elab_as_elim]
theorem scan_induction {motive : Nat → Bool → Text → Prop}
    (nil : ∀ offset quoted, motive offset quoted [])
    (quote : ∀ offset quoted t, motive (offset + 1) (!quoted) t → motive offset quoted ('\'' :: t))
    (unclosed : ∀ offset t, cut .index 0 false t = none → motive offset false ('{' :: t))
    (placeholder : ∀ offset t k, cut .index 0 false t = some k →
      motive (offset + 1 + k.length) false k.rest → motive offset false ('{' :: t))
    (char : ∀ offset quoted c t, c ≠ '\'' → (c = '{' → quoted = true) →
      motive (offset + c.utf8Size) quoted t → motive offset quoted (c :: t))
    (offset : Nat) (quoted : Bool) (t : Text) : motive offset quoted t :=
  have ih : ∀ offset quoted u, u.length < t.length → motive offset quoted u :=
    fun offset quoted u _ => scan_induction nil quote unclosed placeholder char offset quoted u
  match t with
  | [] => nil offset quoted
  | c :: t =>
    if hquote : c = '\'' then
      hquote ▸ quote offset quoted t (ih _ _ t (Nat.lt_succ_self _))
    else if hopen : c = '{' ∧ quoted = false then
      match hcut : cut .index 0 false t with
      | none => hopen.1 ▸ hopen.2 ▸ unclosed offset t hcut
      | some k =>
        hopen.1 ▸ hopen.2 ▸ placeholder offset t k hcut
          (ih _ _ k.rest (Nat.lt_succ_of_lt (Placeholder.rest_lt_of_cut hcut)))
    else
      char offset quoted c t hquote (by simpa using hopen) (ih _ _ t (Nat.lt_succ_self _))
termination_by t.length

/-! ## Offsets -/

/-- Only the offsets in errors depend on where a text stands. -/
theorem placeholdersFrom_add (n offset : Nat) (quoted : Bool) (t : Text) :
    placeholdersFrom (offset + n) quoted t =
      (placeholdersFrom offset quoted t).mapError (PatternError.shift n) := by
  induction offset, quoted, t using scan_induction with
  | nil offset quoted => simp [placeholdersFrom, Except.mapError]
  | quote offset quoted t ih =>
      rw [placeholdersFrom_quote, placeholdersFrom_quote, Nat.add_right_comm, ih]
  | unclosed offset t hcut =>
      rw [placeholdersFrom_open, placeholdersFrom_open, hcut]
      rfl
  | placeholder offset t k hcut ih =>
      rw [placeholdersFrom_open, placeholdersFrom_open, hcut]
      cases hp : ofSegments k.segments with
      | error e => simp [hp, Except.mapError, Placeholder.shift_of_ofSegments hp]
      | ok p =>
          have hoffset : offset + n + 1 + k.length = offset + 1 + k.length + n := by omega
          simp only [hp]
          rw [hoffset, ih]
          cases placeholdersFrom (offset + 1 + k.length) false k.rest <;> rfl
  | char offset quoted c t hquote hopen ih =>
      rw [placeholdersFrom_char hquote hopen, placeholdersFrom_char hquote hopen,
        Nat.add_right_comm, ih]

/-! ## Reading in two parts -/

/-- The characters of a pattern outside its placeholders, given whether the first one is
quoted.  The text is read as `placeholdersFrom` reads it. -/
def fixedText (quoted : Bool) : Text → Text
  | [] => []
  | '\'' :: '\'' :: t => '\'' :: '\'' :: fixedText quoted t
  | '\'' :: t => '\'' :: fixedText (!quoted) t
  | c :: t =>
    if c = '{' ∧ quoted = false then
      match h : cut .index 0 false t with
      | none => []
      | some k =>
        have : k.rest.length < t.length := Placeholder.rest_lt_of_cut h
        fixedText false k.rest
    else c :: fixedText quoted t
termination_by t => t.length

theorem fixedText_quote (quoted : Bool) (t : Text) :
    fixedText quoted ('\'' :: t) = '\'' :: fixedText (!quoted) t := by
  induction t generalizing quoted with
  | nil => simp [fixedText]
  | cons c t ih =>
      by_cases hc : c = '\''
      · rw [hc, ih, Bool.not_not, fixedText]
      · rw [fixedText]
        simp [hc]

theorem fixedText_char {c : Char} (hquote : c ≠ '\'') (hopen : c = '{' → quoted = true)
    (t : Text) : fixedText quoted (c :: t) = c :: fixedText quoted t := by
  rw [fixedText]
  · rw [if_neg]
    rintro ⟨rfl, hquoted⟩
    simp [hopen] at hquoted
  all_goals simp [hquote]

theorem fixedText_open {k : Placeholder.Cut} (h : cut .index 0 false t = some k) :
    fixedText false ('{' :: t) = fixedText false k.rest := by
  rw [fixedText]
  · simp only [and_self, if_true]
    split <;> simp_all
  all_goals simp

/-- Whether the character behind a pattern is quoted, given whether the first one is. -/
def isQuotedBehind (quoted : Bool) (t : Text) : Bool :=
  quoted != ((fixedText quoted t).count '\'' % 2 == 1)

theorem isQuotedBehind_quote (quoted : Bool) (t : Text) :
    isQuotedBehind quoted ('\'' :: t) = isQuotedBehind (!quoted) t := by
  rw [isQuotedBehind, isQuotedBehind, fixedText_quote, List.count_cons_self]
  rcases Nat.mod_two_eq_zero_or_one ((fixedText (!quoted) t).count '\'') with h | h <;>
    simp [Nat.add_mod, h]

theorem isQuotedBehind_char {c : Char} (hquote : c ≠ '\'') (hopen : c = '{' → quoted = true)
    (t : Text) : isQuotedBehind quoted (c :: t) = isQuotedBehind quoted t := by
  rw [isQuotedBehind, isQuotedBehind, fixedText_char hquote hopen, List.count_cons_of_ne hquote]

theorem isQuotedBehind_open {k : Placeholder.Cut} (h : cut .index 0 false t = some k) :
    isQuotedBehind false ('{' :: t) = isQuotedBehind false k.rest := by
  rw [isQuotedBehind, isQuotedBehind, fixedText_open h]

/-- A pattern that is read whole leaves the scan in the state that its quotes tell. -/
theorem placeholdersFrom_append {ps : List Placeholder}
    (h : placeholdersFrom offset quoted t = .ok ps) (u : Text) :
    placeholdersFrom offset quoted (t ++ u) =
      (placeholdersFrom (offset + Text.utf8Length t) (isQuotedBehind quoted t) u).map
        (ps ++ ·) := by
  induction offset, quoted, t using scan_induction generalizing ps with
  | nil offset quoted =>
      obtain rfl : [] = ps := by simpa [placeholdersFrom] using h
      have hstate : isQuotedBehind quoted [] = quoted := by simp [isQuotedBehind, fixedText]
      rw [hstate, List.nil_append, Text.utf8Length_nil, Nat.add_zero]
      cases placeholdersFrom offset quoted u <;> rfl
  | quote offset quoted t ih =>
      rw [placeholdersFrom_quote] at h
      rw [List.cons_append, placeholdersFrom_quote, ih h, isQuotedBehind_quote,
        Text.utf8Length_cons, ← Nat.add_assoc]
      rfl
  | unclosed offset t hcut =>
      rw [placeholdersFrom_open, hcut] at h
      cases h
  | placeholder offset t k hcut ih =>
      rw [placeholdersFrom_open, hcut] at h
      rw [List.cons_append, placeholdersFrom_open, Placeholder.cut_append hcut,
        isQuotedBehind_open hcut]
      cases hp : ofSegments k.segments with
      | error e => simp [hp] at h
      | ok p =>
          simp only [hp] at h ⊢
          cases hrest : placeholdersFrom (offset + 1 + k.length) false k.rest with
          | error e => simp [hrest, Except.map] at h
          | ok qs =>
              obtain rfl : p :: qs = ps := by simpa [hrest, Except.map] using h
              -- The length of a cut does not count the opening brace.
              have hlen := Placeholder.length_add_rest_of_cut hcut
              have hoffset : offset + 1 + k.length + Text.utf8Length k.rest =
                  offset + Text.utf8Length ('{' :: t) := by
                rw [Text.utf8Length_cons, ← hlen]
                have hbrace : '{'.utf8Size = 1 := rfl
                omega
              rw [ih hrest, hoffset]
              cases placeholdersFrom (offset + Text.utf8Length ('{' :: t))
                (isQuotedBehind false k.rest) u <;> rfl
  | char offset quoted c t hquote hopen ih =>
      rw [placeholdersFrom_char hquote hopen] at h
      rw [List.cons_append, placeholdersFrom_char hquote hopen, ih h,
        isQuotedBehind_char hquote hopen, Text.utf8Length_cons, Nat.add_assoc]

/-- A pattern whose quotes outside its placeholders are even in number can be put in
front of another one: placeholders and errors of both come as they would alone, the
errors with their offsets in the whole. -/
theorem placeholders_append {s t : Text} {ps : List Placeholder} (hs : placeholders s = .ok ps)
    (hquotes : (fixedText false s).count '\'' % 2 = 0) :
    placeholders (s ++ t) =
      match placeholders t with
      | .ok qs => .ok (ps ++ qs)
      | .error (.unmatchedBraces offset) => .error (.unmatchedBraces (offset + Text.utf8Length s))
      | .error e => .error e := by
  have hbehind : isQuotedBehind false s = false := by simp [isQuotedBehind, hquotes]
  have happend := placeholdersFrom_append hs t
  rw [hbehind, placeholdersFrom_add] at happend
  rw [placeholders, happend, ← placeholders]
  cases placeholders t with
  | ok qs => rfl
  | error e => cases e <;> rfl

/-- The first pattern ends and the second one starts with a quote, and a character of
more than one byte stands in front of the open brace. -/
theorem placeholders_joined_quotes :
    placeholders "'\x7b' \x7b1\x7d''" = .ok [⟨1, .plain, []⟩] ∧
      (fixedText false "'\x7b' \x7b1\x7d''").count '\'' % 2 = 0 ∧
      placeholders "'é'\x7b0" = .error (.unmatchedBraces 4) ∧
      placeholders ("'\x7b' \x7b1\x7d''" ++ "'é'\x7b0") = .error (.unmatchedBraces 13) := by
  have hs : placeholders "'\x7b' \x7b1\x7d''" = .ok [⟨1, .plain, []⟩] := by decide +kernel
  have hquotes : (fixedText false "'\x7b' \x7b1\x7d''").count '\'' % 2 = 0 := by decide +kernel
  have ht : placeholders "'é'\x7b0" = .error (.unmatchedBraces 4) := by decide +kernel
  have happend := placeholders_append hs hquotes (t := "'é'\x7b0")
  rw [ht] at happend
  exact ⟨hs, hquotes, ht, happend⟩

end Pattern
end ResourceBundles
