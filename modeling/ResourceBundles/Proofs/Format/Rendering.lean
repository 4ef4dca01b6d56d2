import ResourceBundles.Proofs.Format.Scanning
import ResourceBundles.Proofs.Lists
import ResourceBundles.Proofs.Text.Trimming

/-!
# Writing message patterns

A pattern is written from fixed texts and placeholders.  In a fixed text quotes are
doubled and open braces quoted.  A placeholder names its format type in any case and
with any white space around, and its style holds whole quotations and brace pairs.
Reading a written pattern gives its placeholders back.
-/

namespace ResourceBundles

/-- The text is the keyword in any case, with any white space around it.  White space
alone names `plain`. -/
def FormatType.Names (f : FormatType) (t : Text) : Prop :=
  ∃ before word after, t = before ++ (word ++ after) ∧
    (∀ c ∈ before, Text.isWhiteSpace c = true) ∧ (∀ c ∈ after, Text.isWhiteSpace c = true) ∧
    Text.asciiLower word = f.keyword

namespace Placeholder

/-- The characters outside quotes, and not the quotes themselves. -/
def unquotedText (quoted : Bool) : Text → Text
  | [] => []
  | c :: t =>
    if c = '\'' then unquotedText (!quoted) t
    else if quoted then unquotedText quoted t
    else c :: unquotedText quoted t

/-- Outside quotes a text closes all of `depth` braces and those that it opens itself,
none before it is open, and no quotation goes on behind it. -/
structure Balanced (depth : Nat) (quoted : Bool) (t : Text) : Prop where
  close_le : ∀ s ∈ (unquotedText quoted t).inits, s.count '}' ≤ depth + s.count '{'
  close_eq : (unquotedText quoted t).count '}' = depth + (unquotedText quoted t).count '{'
  quotes_even : (quoted.toNat + t.count '\'') % 2 = 0

/-- The digits of an index, behind any number of zeros. -/
def indexDigits (zeros n : Nat) : Text := List.replicate zeros '0' ++ Text.decimal n

/-- The ways to write what stands between the braces of a placeholder. -/
inductive Spells : Placeholder → Text → Prop
  | index {n : Nat} (zeros : Nat) (hn : n < positionLimit) :
      Spells ⟨n, .plain, []⟩ (indexDigits zeros n)
  | typed {n : Nat} {f : FormatType} {t : Text} (zeros : Nat) (hn : n < positionLimit)
      (ht : f.Names t) (hf : f ≠ .choice) :
      Spells ⟨n, f, []⟩ (indexDigits zeros n ++ ',' :: t)
  | styled {n : Nat} {f : FormatType} {t style : Text} (zeros : Nat) (hn : n < positionLimit)
      (ht : f.Names t) (hs : Balanced 0 false style)
      (hf : f = .choice → Choice.accepts style = true) :
      Spells ⟨n, f, style⟩ (indexDigits zeros n ++ ',' :: (t ++ ',' :: style))

end Placeholder

namespace Pattern

/-- A part of a pattern; a placeholder comes with what is written between its braces. -/
inductive Item where
  | fixed (t : Text)
  | placeholder (p : Placeholder) (written : Text)

namespace Item

def Valid : Item → Prop
  | fixed _ => True
  | placeholder p written => p.Spells written

def placeholder? : Item → Option Placeholder
  | fixed _ => none
  | placeholder p _ => some p

def quoteChar (c : Char) : Text :=
  if c = '\'' then ['\'', '\'']
  else if c = '{' then ['\'', '{', '\'']
  else [c]

def text : Item → Text
  | fixed t => t.flatMap quoteChar
  | placeholder _ written => '{' :: (written ++ ['}'])

end Item

def render (items : List Item) : Text := items.flatMap Item.text

end Pattern

/-- A character without a meaning of its own inside a placeholder. -/
def Placeholder.Plain (c : Char) : Prop := c ≠ ',' ∧ c ≠ '{' ∧ c ≠ '}' ∧ c ≠ '\''

instance (c : Char) : Decidable (Placeholder.Plain c) :=
  inferInstanceAs (Decidable (c ≠ ',' ∧ c ≠ '{' ∧ c ≠ '}' ∧ c ≠ '\''))

/-! ## Format types -/

namespace FormatType

open Placeholder (Plain)

variable {f : FormatType} {t : Text}

theorem toLower_mem_keyword {c : Char} (h : c.toLower ∈ f.keyword) :
    Text.isWhiteSpace c = false ∧ Plain c := by
  have hall : f.keyword.all (fun d => !Text.isWhiteSpace d && decide (Plain d)) = true := by
    cases f <;> decide
  have hkeyword : ∀ d ∈ f.keyword, Text.isWhiteSpace d = false ∧ Plain d := by
    simpa using hall
  -- A character that is not plain is no capital, so that it would be in the keyword itself.
  have hlower : ∀ d : Char, ¬Plain d → d.toLower = d := by
    intro d hd
    by_cases hcomma : d = ','
    · rw [hcomma]; rfl
    by_cases hopen : d = '{'
    · rw [hopen]; rfl
    by_cases hclose : d = '}'
    · rw [hclose]; rfl
    by_cases hquote : d = '\''
    · rw [hquote]; rfl
    · exact absurd ⟨hcomma, hopen, hclose, hquote⟩ hd
  constructor
  · cases hc : Text.isWhiteSpace c with
    | false => rfl
    | true =>
        rw [Text.toLower_of_isWhiteSpace hc] at h
        rw [← hc]
        exact (hkeyword c h).1
  · by_contra hc
    rw [hlower c hc] at h
    exact hc (hkeyword c h).2

theorem mem_word {word : Text} (h : Text.asciiLower word = f.keyword) {c : Char} (hc : c ∈ word) :
    c.toLower ∈ f.keyword := by
  rw [← h]
  exact List.mem_map_of_mem hc

theorem Names.trim (h : f.Names t) : Text.asciiLower (Text.trim t) = f.keyword := by
  obtain ⟨before, word, after, rfl, hbefore, hafter, hword⟩ := h
  have hblank : ∀ c ∈ word, Text.isWhiteSpace c = false :=
    fun c hc => (toLower_mem_keyword (mem_word hword hc)).1
  rw [Text.trim_append_append hbefore hblank hafter, hword]

theorem plain_of_isWhiteSpace {c : Char} (h : Text.isWhiteSpace c = true) : Plain c := by
  refine ⟨?_, ?_, ?_, ?_⟩ <;>
  · rintro rfl
    exact absurd h (by decide)

theorem Names.plain (h : f.Names t) : ∀ c ∈ t, Plain c := by
  obtain ⟨before, word, after, rfl, hbefore, hafter, hword⟩ := h
  intro c hc
  rcases List.mem_append.mp hc with hc | hc
  · exact plain_of_isWhiteSpace (hbefore c hc)
  rcases List.mem_append.mp hc with hc | hc
  · exact (toLower_mem_keyword (mem_word hword hc)).2
  · exact plain_of_isWhiteSpace (hafter c hc)

theorem Names.parse? (h : f.Names t) : parse? (t.dropWhile (· = ' ')) = some f := by
  have hspace : ∀ c : Char, decide (c = ' ') = true → Text.isWhiteSpace c = true := by
    intro c hc
    rw [of_decide_eq_true hc]
    rfl
  rw [FormatType.parse?, Text.trim_dropWhile hspace, h.trim]
  cases f <;> decide

end FormatType

namespace Placeholder

variable {p : Part} {depth : Nat} {quoted : Bool} {s : Segments} {t u rest : Text} {c : Char}

/-! ## Indices -/

theorem isDigit_of_mem_indexDigits {zeros n : Nat} (hc : c ∈ indexDigits zeros n) :
    c.isDigit = true := by
  rcases List.mem_append.mp hc with hc | hc
  · rw [(List.mem_replicate.mp hc).2]
    rfl
  · exact Nat.isDigit_of_mem_toDigits (by decide) (by decide) hc

theorem ofDigitChars_replicate_zero (zeros : Nat) :
    Nat.ofDigitChars 10 (List.replicate zeros '0') 0 = 0 := by
  induction zeros with
  | zero => rfl
  | succ zeros ih => exact ih

theorem natural?_indexDigits (zeros n : Nat) : Text.natural? (indexDigits zeros n) = some n := by
  have hne : indexDigits zeros n ≠ [] := by simp [indexDigits, Text.decimal, Nat.toDigits_ne_nil]
  have hall : (indexDigits zeros n).all Char.isDigit = true :=
    List.all_eq_true.mpr fun c hc => isDigit_of_mem_indexDigits hc
  have hvalue : Nat.ofDigitChars 10 (indexDigits zeros n) 0 = n := by
    rw [indexDigits, Nat.ofDigitChars_append, ofDigitChars_replicate_zero, Text.decimal]
    exact Nat.ofDigitChars_toDigits (by decide) (by decide)
  rw [Text.natural?, if_pos ⟨hne, hall⟩, hvalue]

theorem readIndex_indexDigits (zeros : Nat) {n : Nat} (h : n < positionLimit) :
    readIndex (indexDigits zeros n) = .ok n := by
  have hsign : ∀ sign : Char, sign.isDigit = false → ∀ t, indexDigits zeros n ≠ sign :: t := by
    intro sign hsign t ht
    have hdigit : sign.isDigit = true := isDigit_of_mem_indexDigits (by rw [ht]; simp)
    simp [hsign] at hdigit
  have hinteger : Text.integer? (indexDigits zeros n) = some (n : Int) := by
    rw [Text.integer?.eq_def]
    split
    next t ht => exact absurd ht (hsign '-' (by decide) t)
    next t ht => exact absurd ht (hsign '+' (by decide) t)
    next => rw [natural?_indexDigits]; rfl
  have hlimit : positionLimit = 10000 := rfl
  have hmin : Int64.minValue.toInt = -9223372036854775808 := by decide
  have hmax : Int64.maxValue.toInt = 9223372036854775807 := by decide
  simp only [readIndex, hinteger, hmin, hmax]
  rw [if_neg (by omega), if_neg (by omega), if_neg (by simp; omega)]
  rfl

/-! ## Cutting a placeholder into its parts -/

def Segments.prepend (s : Segments) (p : Part) (t : Text) : Segments :=
  match p with
  | .index => { s with index := t ++ s.index }
  | .beforeType | .formatType => { s with formatType := t ++ s.formatType }
  | .style => { s with style := t ++ s.style }

theorem Segments.push_prepend (s : Segments) (p : Part) (t : Text) (c : Char) :
    (s.prepend p t).push p c = s.prepend p (c :: t) := by
  cases p <;> rfl

/-- Cutting yields the given parts and leaves the given rest, whatever the length. -/
def CutsTo (p : Part) (depth : Nat) (quoted : Bool) (t : Text) (s : Segments) (rest : Text) :
    Prop :=
  ∃ n, cut p depth quoted t = some ⟨s, n, rest⟩

theorem CutsTo.push {p' : Part} {d : Nat} {q : Bool} (h : CutsTo p' d q t s rest)
    (hstep : cut p depth quoted (c :: t) = (cut p' d q t).map (·.push p c)) :
    CutsTo p depth quoted (c :: t) (s.push p c) rest := by
  obtain ⟨n, hn⟩ := h
  exact ⟨c.utf8Size + n, by rw [hstep, hn]; rfl⟩

theorem CutsTo.skip {p' : Part} {d : Nat} {q : Bool} (h : CutsTo p' d q t s rest)
    (hstep : cut p depth quoted (c :: t) = (cut p' d q t).map (·.skip c)) :
    CutsTo p depth quoted (c :: t) s rest := by
  obtain ⟨n, hn⟩ := h
  exact ⟨c.utf8Size + n, by rw [hstep, hn]; rfl⟩

theorem CutsTo.stop (p : Part) (t : Text) : CutsTo p 0 false ('}' :: t) ⟨[], [], []⟩ t :=
  ⟨1, by simp [cut, Cut.stop]⟩

theorem CutsTo.comma (hp : p ≠ .style) (h : CutsTo p.afterComma depth false t s rest) :
    CutsTo p depth false (',' :: t) s rest :=
  h.skip (by simp [cut, hp])

/-- What a text makes of the number of open braces and of the quotation it stands in. -/
inductive MovesAlong : Nat → Bool → Text → Nat → Bool → Prop
  | nil {depth : Nat} {quoted : Bool} : MovesAlong depth quoted [] depth quoted
  | cons {depth d d' : Nat} {quoted q q' : Bool} {c : Char} {t : Text}
      (hc : Moves depth quoted c d q) (ht : MovesAlong d q t d' q') :
      MovesAlong depth quoted (c :: t) d' q'

/-- Every comma of a text is quoted. -/
def CommasQuoted (quoted : Bool) (t : Text) : Prop :=
  ∀ front back, t = front ++ ',' :: back → (quoted.toNat + front.count '\'') % 2 = 1

theorem Moves.parity {d : Nat} {q : Bool} (h : Moves depth quoted c d q) :
    q.toNat = (quoted.toNat + [c].count '\'') % 2 := by
  cases h with
  | quote => cases quoted <;> rfl
  | quoted hc => simp [hc]
  | char hc _ => simp [hc]

theorem CommasQuoted.cons_iff {d : Nat} {q : Bool} (h : Moves depth quoted c d q) :
    CommasQuoted quoted (c :: t) ↔ (c = ',' → quoted = true) ∧ CommasQuoted q t := by
  have hparity : ∀ front : Text,
      (q.toNat + front.count '\'') % 2 = (quoted.toNat + (c :: front).count '\'') % 2 := by
    intro front
    rw [h.parity, count_cons c '\'' front]
    omega
  constructor
  · intro hcommas
    refine ⟨?_, fun front back ht => ?_⟩
    · rintro rfl
      have hfirst := hcommas [] t rfl
      cases quoted <;> simp_all
    · rw [hparity]
      exact hcommas (c :: front) back (by rw [ht]; rfl)
  · rintro ⟨hc, hcommas⟩ front back ht
    cases front with
    | nil =>
        obtain ⟨rfl, -⟩ := List.cons.inj ht
        simp [hc rfl]
    | cons e front =>
        obtain ⟨rfl, hrest⟩ := List.cons.inj ht
        rw [← hparity]
        exact hcommas front back hrest

/-- A character that is no comma outside quotes belongs to the part that it stands in. -/
theorem cut_push {d : Nat} {q : Bool} (hp : p ≠ .beforeType)
    (hcomma : p = .style ∨ (c = ',' → quoted = true)) (h : Moves depth quoted c d q) (t : Text) :
    cut p depth quoted (c :: t) = (cut p d q t).map (·.push p c) := by
  have hafter : p.afterChar = p := by cases p <;> simp_all [Part.afterChar]
  cases h with
  | quote => cases quoted <;> simp [cut, hafter]
  | quoted hc =>
      have hquoted : (c != '\'') = true := bne_iff_ne.mpr hc
      simp [cut, hafter, hquoted]
  | char hc hd =>
      have hquoted : (c == '\'') = false := beq_false_of_ne hc
      by_cases hopen : c = '{'
      · subst hopen
        obtain rfl : depth + 1 = d := by simpa using hd
        simp [cut, hafter]
      by_cases hclose : c = '}'
      · subst hclose
        obtain rfl : depth = d + 1 := by simpa using hd
        simp [cut, hafter]
      obtain rfl : depth = d := by simpa [hopen, hclose] using hd
      have hsplit : ¬(c = ',' ∧ p ≠ .style) := by
        rintro ⟨hc, hstyle⟩
        exact absurd (hcomma.resolve_left hstyle hc) (by decide)
      simp [cut, hafter, hopen, hclose, hquoted, hp, hsplit]

/-- A part takes a text whose commas do not end it. -/
theorem CutsTo.run {d : Nat} {q : Bool} (hu : MovesAlong depth quoted u d q)
    (hp : p ≠ .beforeType) (hcommas : p = .style ∨ CommasQuoted quoted u)
    (h : CutsTo p d q t s rest) : CutsTo p depth quoted (u ++ t) (s.prepend p u) rest := by
  induction hu with
  | nil => cases p <;> exact h
  | @cons depth d d' quoted q q' c u hc _ ih =>
      have hfirst : p = .style ∨ (c = ',' → quoted = true) :=
        hcommas.imp_right fun hu => ((CommasQuoted.cons_iff hc).mp hu).1
      have hrest := ih (hcommas.imp_right fun hu => ((CommasQuoted.cons_iff hc).mp hu).2) h
      rw [← Segments.push_prepend]
      exact hrest.push (cut_push hp hfirst hc _)

theorem MovesAlong.plain (ht : ∀ c ∈ t, Plain c) : MovesAlong depth false t depth false := by
  induction t with
  | nil => exact .nil
  | cons c t ih =>
      obtain ⟨-, hopen, hclose, hquote⟩ := ht c List.mem_cons_self
      have hrest := ih fun d hd => ht d (List.mem_cons_of_mem c hd)
      exact .cons (.char hquote (by simp [hopen, hclose])) hrest

theorem CutsTo.plain (hp : p ≠ .beforeType) (ht : ∀ c ∈ t, Plain c)
    (h : CutsTo p depth false u s rest) :
    CutsTo p depth false (t ++ u) (s.prepend p t) rest := by
  have hcommas : CommasQuoted false t := by
    rintro front back rfl
    exact absurd rfl (ht ',' (by simp)).1
  exact h.run (.plain ht) hp (.inr hcommas)

theorem CutsTo.formatType {style : Text} (ht : ∀ c ∈ t, Plain c)
    (hu : ∀ p, p = .beforeType ∨ p = .formatType → CutsTo p depth false u ⟨[], [], style⟩ rest) :
    CutsTo .beforeType depth false (t ++ u) ⟨[], t.dropWhile (· = ' '), style⟩ rest := by
  induction t with
  | nil => exact hu .beforeType (.inl rfl)
  | cons c t ih =>
      obtain ⟨hcomma, hopen, hclose, hquote⟩ := ht c List.mem_cons_self
      have ht' := fun d hd => ht d (List.mem_cons_of_mem c hd)
      by_cases hspace : c = ' '
      · -- The space belongs to no part, and the format type is still to come.
        rw [List.dropWhile_cons_of_pos (by simp [hspace])]
        exact (ih ht').skip (by simp [cut, hspace])
      · have hquoted : (c == '\'') = false := beq_false_of_ne hquote
        have hstep : cut .beforeType depth false (c :: (t ++ u)) =
            (cut .formatType depth false (t ++ u)).map (·.push .beforeType c) := by
          simp [cut, hcomma, hopen, hclose, hquoted, hspace, Part.afterChar]
        have hrest := (CutsTo.plain (by decide) ht' (hu .formatType (.inr rfl))).push hstep
        rw [List.dropWhile_cons_of_neg (by simp [hspace])]
        simpa [Segments.prepend, Segments.push] using hrest

/-! ## Styles -/

namespace Balanced

theorem quote_iff : Balanced depth quoted ('\'' :: t) ↔ Balanced depth (!quoted) t := by
  have htext : unquotedText quoted ('\'' :: t) = unquotedText (!quoted) t := by
    simp [unquotedText]
  have hparity : (quoted.toNat + ('\'' :: t).count '\'') % 2 =
      ((!quoted).toNat + t.count '\'') % 2 := by
    rw [List.count_cons_self]
    cases quoted <;> simp <;> omega
  constructor
  · rintro ⟨hle, heq, hquotes⟩
    exact ⟨htext ▸ hle, htext ▸ heq, hparity ▸ hquotes⟩
  · rintro ⟨hle, heq, hquotes⟩
    exact ⟨htext ▸ hle, htext ▸ heq, hparity ▸ hquotes⟩

theorem quoted_iff (hc : c ≠ '\'') : Balanced depth true (c :: t) ↔ Balanced depth true t := by
  have htext : unquotedText true (c :: t) = unquotedText true t := by
    simp [unquotedText, hc]
  have hcount : (c :: t).count '\'' = t.count '\'' := List.count_cons_of_ne hc
  constructor
  · rintro ⟨hle, heq, hquotes⟩
    exact ⟨htext ▸ hle, htext ▸ heq, hcount ▸ hquotes⟩
  · rintro ⟨hle, heq, hquotes⟩
    exact ⟨htext ▸ hle, htext ▸ heq, hcount ▸ hquotes⟩

/-- Outside quotes a brace changes the number of open braces, from `depth` to `d`. -/
theorem char_iff {d : Nat} (hc : c ≠ '\'') (hd : depth + [c].count '{' = d + [c].count '}') :
    Balanced depth false (c :: t) ↔ Balanced d false t := by
  have htext : unquotedText false (c :: t) = c :: unquotedText false t := by
    simp [unquotedText, hc]
  have hquote : (c :: t).count '\'' = t.count '\'' := List.count_cons_of_ne hc
  constructor
  · rintro ⟨hle, heq, hquotes⟩
    refine ⟨fun s hs => ?_, ?_, hquote ▸ hquotes⟩
    · have hcs : c :: s ∈ (unquotedText false (c :: t)).inits := by
        rw [htext, List.mem_inits, List.cons_prefix_cons]
        exact ⟨rfl, (List.mem_inits _ _).mp hs⟩
      have hle := hle _ hcs
      rw [count_cons c '}', count_cons c '{'] at hle
      omega
    · rw [htext, count_cons c '}', count_cons c '{'] at heq
      omega
  · rintro ⟨hle, heq, hquotes⟩
    refine ⟨fun s hs => ?_, ?_, hquote.symm ▸ hquotes⟩
    · rw [htext, List.mem_inits] at hs
      cases s with
      | nil => exact Nat.zero_le _
      | cons e s =>
          obtain ⟨rfl, hrest⟩ := List.cons_prefix_cons.mp hs
          have hle := hle s ((List.mem_inits _ _).mpr hrest)
          rw [count_cons _ '}' s, count_cons _ '{' s]
          omega
    · rw [htext, count_cons c '}', count_cons c '{']
      omega

theorem depth_pos (h : Balanced depth false ('}' :: t)) : 0 < depth := by
  have hle := h.close_le ['}'] (by simp [unquotedText])
  have hclose : ['}'].count '}' = 1 := rfl
  have hopen : ['}'].count '{' = 0 := rfl
  omega

end Balanced

theorem Moves.balanced_iff {d : Nat} {q : Bool} (h : Moves depth quoted c d q) :
    Balanced depth quoted (c :: t) ↔ Balanced d q t := by
  cases h with
  | quote => exact Balanced.quote_iff
  | quoted hc => exact Balanced.quoted_iff hc
  | char hc hd => exact Balanced.char_iff hc hd

/-- Every character but a closing brace without an open one has a move. -/
theorem exists_moves (h : c = '}' → quoted = false → 0 < depth) :
    ∃ d q, Moves depth quoted c d q := by
  by_cases hquote : c = '\''
  · exact ⟨depth, !quoted, hquote ▸ .quote⟩
  cases quoted with
  | true => exact ⟨depth, true, .quoted hquote⟩
  | false =>
      refine ⟨depth + [c].count '{' - [c].count '}', false, .char hquote ?_⟩
      by_cases hclose : c = '}'
      · have hpos := h hclose rfl
        subst hclose
        have hcount : ['}'].count '}' = 1 := rfl
        omega
      · have hcount : [c].count '}' = 0 := by simp [hclose]
        omega

theorem Balanced.movesAlong (h : Balanced depth quoted (t ++ u)) :
    ∃ d q, MovesAlong depth quoted t d q ∧ Balanced d q u := by
  induction t generalizing depth quoted with
  | nil => exact ⟨depth, quoted, .nil, h⟩
  | cons c t ih =>
      obtain ⟨d, q, hmove⟩ : ∃ d q, Moves depth quoted c d q := by
        apply exists_moves
        rintro rfl rfl
        exact h.depth_pos
      obtain ⟨d', q', hmoves, hrest⟩ := ih (hmove.balanced_iff.mp h)
      exact ⟨d', q', .cons hmove hmoves, hrest⟩

theorem Balanced.of_nil (h : Balanced depth quoted []) : depth = 0 ∧ quoted = false := by
  refine ⟨by simpa [unquotedText] using h.close_eq.symm, ?_⟩
  have hquotes := h.quotes_even
  cases quoted <;> simp_all

/-- The last part takes the text in front of the brace that ends the placeholder. -/
theorem CutsTo.last (hp : p ≠ .beforeType) (hcommas : p = .style ∨ CommasQuoted quoted t)
    (h : Balanced depth quoted t) (rest : Text) :
    CutsTo p depth quoted (t ++ '}' :: rest) ((⟨[], [], []⟩ : Segments).prepend p t) rest := by
  rw [← List.append_nil t] at h
  obtain ⟨d, q, hmoves, hnil⟩ := h.movesAlong
  obtain ⟨rfl, rfl⟩ := hnil.of_nil
  exact (CutsTo.stop p rest).run hmoves hp hcommas

theorem CutsTo.style (h : Balanced depth quoted t) (rest : Text) :
    CutsTo .style depth quoted (t ++ '}' :: rest) ⟨[], [], t⟩ rest := by
  simpa [Segments.prepend] using CutsTo.last (by decide) (.inl rfl) h rest

/-! ## Placeholders as they are written -/

theorem plain_of_mem_indexDigits {zeros n : Nat} (hc : c ∈ indexDigits zeros n) : Plain c := by
  have hdigit := isDigit_of_mem_indexDigits hc
  refine ⟨?_, ?_, ?_, ?_⟩ <;>
  · rintro rfl
    exact absurd hdigit (by decide)

theorem CutsTo.index {type style : Text} (zeros n : Nat)
    (h : CutsTo .index 0 false u ⟨[], type, style⟩ rest) :
    CutsTo .index 0 false (indexDigits zeros n ++ u) ⟨indexDigits zeros n, type, style⟩ rest := by
  have hdigits : ∀ c ∈ indexDigits zeros n, Plain c := fun _ => plain_of_mem_indexDigits
  simpa [Segments.prepend] using CutsTo.plain (by decide) hdigits h

theorem ofSegments_written {n : Nat} {f : FormatType} {style : Text} (zeros : Nat)
    (hn : n < positionLimit) (ht : f.Names t) (hf : f = .choice → Choice.accepts style = true) :
    ofSegments ⟨indexDigits zeros n, t.dropWhile (· = ' '), style⟩ = .ok ⟨n, f, style⟩ := by
  have hchoice : ¬(f = .choice ∧ Choice.accepts style = false) := by
    rintro ⟨hc, hstyle⟩
    rw [hf hc] at hstyle
    exact Bool.noConfusion hstyle
  simp only [ofSegments, readIndex_indexDigits zeros hn, ht.parse?]
  rw [if_neg hchoice]

theorem Spells.cutsTo {q : Placeholder} {w : Text} (h : q.Spells w) (rest : Text) :
    ∃ s, CutsTo .index 0 false (w ++ '}' :: rest) s rest ∧ ofSegments s = .ok q := by
  cases h with
  | @index n zeros hn =>
      have hnames : FormatType.plain.Names [] := ⟨[], [], [], rfl, by simp, by simp, rfl⟩
      exact ⟨_, .index zeros n (.stop .index rest), ofSegments_written zeros hn hnames (by simp)⟩
  | @typed n f t zeros hn ht hf =>
      have htype : CutsTo .beforeType 0 false (t ++ '}' :: rest) _ rest :=
        .formatType ht.plain fun p _ => .stop p rest
      rw [List.append_assoc, List.cons_append]
      exact ⟨_, .index zeros n (.comma (by decide) htype),
        ofSegments_written zeros hn ht (absurd · hf)⟩
  | @styled n f t style zeros hn ht hs hf =>
      have hstyle : CutsTo .style 0 false (style ++ '}' :: rest) _ rest := .style hs rest
      have htype : CutsTo .beforeType 0 false (t ++ ',' :: (style ++ '}' :: rest))
          ⟨[], t.dropWhile (· = ' '), style⟩ rest := by
        refine .formatType ht.plain fun p hp => .comma ?_ ?_
        · rcases hp with rfl | rfl <;> decide
        · rcases hp with rfl | rfl <;> exact hstyle
      rw [List.append_assoc, List.cons_append, List.append_assoc, List.cons_append]
      exact ⟨_, .index zeros n (.comma (by decide) htype), ofSegments_written zeros hn ht hf⟩

end Placeholder

namespace Pattern

/-! ## Reading a written pattern -/

theorem placeholdersFrom_quoteChar (offset : Nat) (c : Char) (u : Text) :
    ∃ n, placeholdersFrom offset false (Item.quoteChar c ++ u) = placeholdersFrom n false u := by
  by_cases hquote : c = '\''
  · refine ⟨offset + 1 + 1, ?_⟩
    subst hquote
    change placeholdersFrom offset false ('\'' :: '\'' :: u) = _
    rw [placeholdersFrom_quote, placeholdersFrom_quote, Bool.not_not]
  by_cases hopen : c = '{'
  · refine ⟨offset + 1 + '{'.utf8Size + 1, ?_⟩
    subst hopen
    change placeholdersFrom offset false ('\'' :: '{' :: '\'' :: u) = _
    rw [placeholdersFrom_quote, Bool.not_false, placeholdersFrom_char hquote fun _ => rfl,
      placeholdersFrom_quote, Bool.not_true]
  · refine ⟨offset + c.utf8Size, ?_⟩
    rw [Item.quoteChar, if_neg hquote, if_neg hopen, List.singleton_append,
      placeholdersFrom_char hquote (absurd · hopen)]

theorem placeholdersFrom_fixed (t : Text) (offset : Nat) (u : Text) :
    ∃ n, placeholdersFrom offset false (t.flatMap Item.quoteChar ++ u) =
      placeholdersFrom n false u := by
  induction t generalizing offset with
  | nil => exact ⟨offset, rfl⟩
  | cons c t ih =>
      obtain ⟨n, hn⟩ := placeholdersFrom_quoteChar offset c (t.flatMap Item.quoteChar ++ u)
      obtain ⟨m, hm⟩ := ih n
      exact ⟨m, by rw [List.flatMap_cons, List.append_assoc, hn, hm]⟩

theorem placeholdersFrom_written {p : Placeholder} {w : Text} (h : p.Spells w) (offset : Nat)
    (u : Text) : ∃ n, placeholdersFrom offset false ('{' :: (w ++ '}' :: u)) =
      (placeholdersFrom n false u).map (p :: ·) := by
  obtain ⟨s, ⟨n, hcut⟩, hp⟩ := h.cutsTo u
  exact ⟨offset + 1 + n, by simp only [placeholdersFrom_open, hcut, hp]⟩

theorem placeholdersFrom_render {items : List Item} (h : ∀ i ∈ items, i.Valid) (offset : Nat) :
    placeholdersFrom offset false (render items) = .ok (items.filterMap Item.placeholder?) := by
  induction items generalizing offset with
  | nil => simp [render, placeholdersFrom]
  | cons i items ih =>
      have hrest := ih fun j hj => h j (List.mem_cons_of_mem i hj)
      have hi := h i List.mem_cons_self
      rw [render, List.flatMap_cons, ← render]
      cases i with
      | fixed t =>
          obtain ⟨n, hn⟩ := placeholdersFrom_fixed t offset (render items)
          rw [Item.text, hn, hrest]
          rfl
      | placeholder p w =>
          obtain ⟨n, hn⟩ := placeholdersFrom_written hi offset (render items)
          rw [Item.text, List.cons_append, List.append_assoc, List.singleton_append, hn, hrest]
          rfl

theorem lt_arity_iff {ps : List Placeholder} {i : Nat} : i < arity ps ↔ ∃ p ∈ ps, i ≤ p.index := by
  rw [arity, Lists.lt_foldl_max, or_iff_right (Nat.not_lt_zero i)]
  constructor
  · rintro ⟨n, hn, hlt⟩
    obtain ⟨p, hp, rfl⟩ := List.mem_map.mp hn
    exact ⟨p, hp, Nat.le_of_lt_succ hlt⟩
  · rintro ⟨p, hp, hle⟩
    exact ⟨p.index + 1, List.mem_map_of_mem hp, Nat.lt_succ_of_le hle⟩

/-- A pattern written from fixed texts and placeholders holds exactly these placeholders,
and it has argument positions up to the largest index, all of which accept any value. -/
theorem placeholders_render (items : List Item) (h : ∀ i ∈ items, i.Valid) :
    placeholders (render items) = .ok (items.filterMap Item.placeholder?) ∧
      ∃ types, resolve (render items) = .ok types ∧ (∀ s ∈ types, s = .universal) ∧
        ∀ i, i < types.length ↔ ∃ p ∈ items.filterMap Item.placeholder?, i ≤ p.index := by
  have hread : placeholders (render items) = .ok (items.filterMap Item.placeholder?) :=
    placeholdersFrom_render h 0
  refine ⟨hread, List.replicate (arity (items.filterMap Item.placeholder?)) .universal, ?_, ?_, ?_⟩
  · rw [resolve, hread]
    rfl
  · exact fun s hs => (List.mem_replicate.mp hs).2
  · intro i
    rw [List.length_replicate]
    exact lt_arity_iff

/-- A quote behind a quoted brace, a placeholder with a nested pattern and a quoted brace in
its style, and a quote right behind it. -/
def tangledItems : List Item := [
  .fixed "\x7b's",
  .placeholder ⟨7, .choice, "0#'\x7b'|1<\x7b1,number\x7d"⟩
    "007,\t Choice ,0#'\x7b'|1<\x7b1,number\x7d",
  .fixed "'"]

theorem valid_tangledItems : ∀ i ∈ tangledItems, i.Valid := by
  have hnames : FormatType.choice.Names "\t Choice " :=
    ⟨['\t', ' '], "Choice".toList, [' '], rfl, List.all_eq_true.mp rfl,
      List.all_eq_true.mp rfl, rfl⟩
  have hstyle : Placeholder.Balanced 0 false "0#'\x7b'|1<\x7b1,number\x7d" :=
    ⟨by decide, by decide, by decide⟩
  have hchoice : Choice.accepts "0#'\x7b'|1<\x7b1,number\x7d" = true := by decide +kernel
  intro i hi
  simp only [tangledItems, List.mem_cons, List.not_mem_nil, or_false] at hi
  rcases hi with rfl | rfl | rfl
  · trivial
  · exact .styled 2 (by decide) hnames hstyle fun _ => hchoice
  · trivial

theorem placeholders_tangledItems :
    (∀ i ∈ tangledItems, i.Valid) ∧
      render tangledItems = "'\x7b'''s\x7b007,\t Choice ,0#'\x7b'|1<\x7b1,number\x7d\x7d''".toList ∧
      placeholders (render tangledItems) = .ok [⟨7, .choice, "0#'\x7b'|1<\x7b1,number\x7d"⟩] :=
  ⟨valid_tangledItems, rfl, (placeholders_render tangledItems valid_tangledItems).1⟩

end Pattern
end ResourceBundles
