import ResourceBundles.Proofs.Format.Rendering

/-!
# Faults of message patterns

A pattern that cannot be read has one fault, and the text in front of it is read whole.
An open brace is at fault if no closing brace behind it is its own, which the whole rest of
the pattern decides.  Every other fault lies in a placeholder that has an end, so that
nothing behind this end can undo it.
-/

namespace ResourceBundles

namespace Placeholder

variable {p : Part} {depth : Nat} {quoted : Bool} {t : Text} {c : Char}

/-! ## Placeholders without an end -/

/-- Every closing brace outside quotes closes one of `depth` open braces or one that the
text itself opens before it. -/
def Unclosed (depth : Nat) (quoted : Bool) (t : Text) : Prop :=
  ∀ inner rest, t = inner ++ '}' :: rest → (quoted.toNat + inner.count '\'') % 2 = 0 →
    (unquotedText quoted inner).count '}' < depth + (unquotedText quoted inner).count '{'

namespace Unclosed

theorem nil : Unclosed depth quoted [] := fun inner rest h => by simp at h

/-- The first closing brace is the first character, or it comes behind it. -/
theorem cons_iff : Unclosed depth quoted (c :: t) ↔
    (c = '}' → quoted = false → 0 < depth) ∧
      ∀ inner rest, t = inner ++ '}' :: rest →
        (quoted.toNat + (c :: inner).count '\'') % 2 = 0 →
        (unquotedText quoted (c :: inner)).count '}' <
          depth + (unquotedText quoted (c :: inner)).count '{' := by
  constructor
  · intro h
    refine ⟨?_, ?_⟩
    · rintro rfl rfl
      exact h [] t rfl rfl
    · rintro inner rest rfl
      exact h (c :: inner) rest rfl
  · rintro ⟨hfirst, hrest⟩ inner rest ht heven
    cases inner with
    | nil =>
        have hquoted : quoted = false := by cases quoted <;> simp_all
        exact hfirst (List.cons.inj ht).1 hquoted
    | cons d inner =>
        obtain ⟨rfl, rfl⟩ := List.cons.inj ht
        exact hrest inner rest rfl heven

theorem quote_iff : Unclosed depth quoted ('\'' :: t) ↔ Unclosed depth (!quoted) t := by
  rw [cons_iff]
  have hparity : ∀ n : Nat, (quoted.toNat + (n + 1)) % 2 = 0 ↔ ((!quoted).toNat + n) % 2 = 0 := by
    intro n
    cases quoted <;> simp <;> omega
  simp [Unclosed, hparity, unquotedText]

theorem quoted_iff (hc : c ≠ '\'') : Unclosed depth true (c :: t) ↔ Unclosed depth true t := by
  rw [cons_iff]
  simp [Unclosed, unquotedText, hc]

/-- Outside quotes a brace changes the number of open braces, from `depth` to `d`. -/
theorem char_iff {d : Nat} (hc : c ≠ '\'') (hclose : c = '}' → 0 < depth)
    (hd : depth + [c].count '{' = d + [c].count '}') :
    Unclosed depth false (c :: t) ↔ Unclosed d false t := by
  have hlt : ∀ s : Text, (c :: s).count '}' < depth + (c :: s).count '{' ↔
      s.count '}' < d + s.count '{' := by
    intro s
    rw [count_cons c '}', count_cons c '{']
    omega
  rw [cons_iff, and_iff_right fun h _ => hclose h]
  simp [Unclosed, unquotedText, hc, hlt]

end Unclosed

theorem Moves.unclosed_iff {d : Nat} {q : Bool} (h : Moves depth quoted c d q) :
    Unclosed depth quoted (c :: t) ↔ Unclosed d q t := by
  cases h with
  | quote => exact Unclosed.quote_iff
  | quoted hc => exact Unclosed.quoted_iff hc
  | char hc hd =>
      apply Unclosed.char_iff hc _ hd
      rintro rfl
      simp at hd
      omega

/-- A placeholder has no end exactly if none of the closing braces is its own. -/
theorem cut_eq_none_iff : cut p depth quoted t = none ↔ Unclosed depth quoted t := by
  induction t generalizing p depth quoted with
  | nil => exact iff_of_true rfl .nil
  | cons c t ih =>
      rcases cut_step p depth quoted c with
        ⟨rfl, rfl, rfl, hstop⟩ | ⟨p', d, q, f, hmove, -, hstep⟩
      · simp [hstop, Unclosed.cons_iff]
      · rw [hstep, Option.map_eq_none_iff, ih, hmove.unclosed_iff]

end Placeholder

namespace Pattern

open Placeholder (cut ofSegments)

variable {offset o : Nat} {quoted : Bool} {t : Text} {e : PatternError}

/-! ## Where a pattern is at fault -/

theorem isQuotedBehind_eq_false_iff :
    isQuotedBehind false t = false ↔ (fixedText false t).count '\'' % 2 = 0 := by
  simp [isQuotedBehind]

/-- The brace at an offset is found unclosed exactly if the text before it is read whole
and the brace is not quoted. -/
theorem placeholdersFrom_unmatched_iff :
    placeholdersFrom offset quoted t = .error (.unmatchedBraces o) ↔
      ∃ before after, t = before ++ '{' :: after ∧ o = offset + Text.utf8Length before ∧
        (∃ ps, placeholdersFrom offset quoted before = .ok ps) ∧
        isQuotedBehind quoted before = false ∧ cut .index 0 false after = none := by
  constructor
  · intro h
    induction offset, quoted, t using scan_induction with
    | nil offset quoted => simp [placeholdersFrom] at h
    | quote offset quoted t ih =>
        rw [placeholdersFrom_quote] at h
        obtain ⟨before, after, rfl, rfl, ⟨ps, hps⟩, hbehind, hcut⟩ := ih h
        refine ⟨'\'' :: before, after, rfl, ?_, ⟨ps, ?_⟩, ?_, hcut⟩
        · exact Nat.add_assoc ..
        · rw [placeholdersFrom_quote, hps]
        · rw [isQuotedBehind_quote, hbehind]
    | unclosed offset t hcut =>
        rw [placeholdersFrom_open, hcut] at h
        obtain rfl : offset = o := by simpa using h
        have hread : placeholdersFrom offset false [] = .ok [] := by simp [placeholdersFrom]
        have hbehind : isQuotedBehind false [] = false := by simp [isQuotedBehind, fixedText]
        exact ⟨[], t, rfl, rfl, ⟨[], hread⟩, hbehind, hcut⟩
    | placeholder offset t k hcut ih =>
        rw [placeholdersFrom_open, hcut] at h
        obtain ⟨consumed, rfl, hlength, hconsumed⟩ := Placeholder.exists_consumed_of_cut hcut
        cases hp : ofSegments k.segments with
        | error e =>
            -- A placeholder that has an end has faults without an offset.
            obtain rfl : e = .unmatchedBraces o := by simpa [hp] using h
            have hshift := Placeholder.shift_of_ofSegments hp 1
            simp [PatternError.shift] at hshift
        | ok p =>
            simp only [hp] at h
            cases hrest : placeholdersFrom (offset + 1 + k.length) false k.rest with
            | ok qs => simp [hrest, Except.map] at h
            | error e =>
                obtain rfl : e = .unmatchedBraces o := by simpa [hrest, Except.map] using h
                obtain ⟨before, after, hk, rfl, ⟨ps, hps⟩, hbehind, hnone⟩ := ih hrest
                refine ⟨'{' :: (consumed ++ before), after, ?_, ?_, ⟨p :: ps, ?_⟩, ?_, hnone⟩
                · rw [hk, List.cons_append, List.append_assoc]
                · have hbrace : '{'.utf8Size = 1 := rfl
                  rw [Text.utf8Length_cons, Text.utf8Length_append, hlength]
                  omega
                · simp only [placeholdersFrom_open, hconsumed, hp, hps]
                  rfl
                · rw [isQuotedBehind_open (hconsumed before), hbehind]
    | char offset quoted c t hquote hopen ih =>
        rw [placeholdersFrom_char hquote hopen] at h
        obtain ⟨before, after, rfl, rfl, ⟨ps, hps⟩, hbehind, hcut⟩ := ih h
        refine ⟨c :: before, after, rfl, ?_, ⟨ps, ?_⟩, ?_, hcut⟩
        · exact Nat.add_assoc ..
        · rw [placeholdersFrom_char hquote hopen, hps]
        · rw [isQuotedBehind_char hquote hopen, hbehind]
  · rintro ⟨before, after, rfl, rfl, ⟨ps, hps⟩, hbehind, hcut⟩
    rw [placeholdersFrom_append hps, hbehind, placeholdersFrom_open, hcut]
    rfl

/-- Any other fault is found whatever follows. -/
theorem placeholdersFrom_error_append (h : placeholdersFrom offset quoted t = .error e)
    (he : ∀ o, e ≠ .unmatchedBraces o) (u : Text) :
    placeholdersFrom offset quoted (t ++ u) = .error e := by
  induction offset, quoted, t using scan_induction with
  | nil offset quoted => simp [placeholdersFrom] at h
  | quote offset quoted t ih =>
      rw [placeholdersFrom_quote] at h
      rw [List.cons_append, placeholdersFrom_quote, ih h]
  | unclosed offset t hcut =>
      rw [placeholdersFrom_open, hcut] at h
      exact absurd (Except.error.inj h).symm (he offset)
  | placeholder offset t k hcut ih =>
      rw [placeholdersFrom_open, hcut] at h
      rw [List.cons_append, placeholdersFrom_open, Placeholder.cut_append hcut]
      cases hp : ofSegments k.segments with
      | error e' => simpa [hp] using h
      | ok p =>
          simp only [hp] at h ⊢
          cases hrest : placeholdersFrom (offset + 1 + k.length) false k.rest with
          | ok qs => simp [hrest, Except.map] at h
          | error e' =>
              obtain rfl : e' = e := by simpa [hrest, Except.map] using h
              rw [ih hrest]
              rfl
  | char offset quoted c t hquote hopen ih =>
      rw [placeholdersFrom_char hquote hopen] at h
      rw [List.cons_append, placeholdersFrom_char hquote hopen, ih h]

/-- A pattern that is not read has one of two faults.  Either the text before some brace
is read whole, the brace is not quoted, and no closing brace behind it is its own; or the
fault stays the same whatever follows the pattern. -/
theorem fault_of_front (t : Text) :
    (∀ offset, placeholders t = .error (.unmatchedBraces offset) ↔
      ∃ before after, t = before ++ '{' :: after ∧ Text.utf8Length before = offset ∧
        (∃ ps, placeholders before = .ok ps) ∧ (fixedText false before).count '\'' % 2 = 0 ∧
        Placeholder.Unclosed 0 false after) ∧
    ∀ e, placeholders t = .error e → (∀ offset, e ≠ .unmatchedBraces offset) →
      ∀ u, placeholders (t ++ u) = .error e := by
  refine ⟨fun offset => ?_, fun e h he u => placeholdersFrom_error_append h he u⟩
  rw [placeholders, placeholdersFrom_unmatched_iff]
  refine exists_congr fun before => exists_congr fun after => and_congr_right fun _ => ?_
  rw [Nat.zero_add, Placeholder.cut_eq_none_iff, isQuotedBehind_eq_false_iff, eq_comm]
  rfl

example : placeholders "é'\x7b'\x7b0,x,'\x7d'\x7b\x7d" = .error (.unmatchedBraces 5) := by
  decide +kernel

end Pattern
end ResourceBundles
