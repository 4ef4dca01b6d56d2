import ResourceBundles.Proofs.Properties.Spelling

/-!
# Layouts of bundles

A bundle can be written in many ways: entries in their order, one on a line, with
blanks around the separator, any spelling of keys and values, and blank lines and
comments between them.  Reading any such text gives the bundle back, with every
entry on the line where it stands.
-/

namespace ResourceBundles.Properties

def AllBlank (t : Text) : Prop := ∀ c ∈ t, isBlank c = true

/-- A line without an entry: blanks, and perhaps a comment behind them. -/
inductive Filler : Text → Prop
  | blank {b : Text} (hb : AllBlank b) : Filler b
  | comment {b t : Text} {mark : Char} (hb : AllBlank b) (hm : mark = '#' ∨ mark = '!')
      (ht : OneLine t) : Filler (b ++ mark :: t)

/-- A line with an entry: key and value are separated by a sign, and blanks may stand
in front of the key and on both sides of the sign. -/
inductive SpellsEntry (key value : Text) : Text → Prop
  | mk {b₁ k b₂ b₃ v : Text} {sign : Char} (hb₁ : AllBlank b₁) (hk : Spells .key key k)
      (hb₂ : AllBlank b₂) (hs : sign = '=' ∨ sign = ':') (hb₃ : AllBlank b₃)
      (hv : SpellsValue value v) : SpellsEntry key value (b₁ ++ (k ++ (b₂ ++ sign :: (b₃ ++ v))))

/-- A natural line with its end, and the entry that it is meant to hold. -/
structure WrittenLine where
  text : Text
  stop : LineEnd
  entry : Option (Text × Text)

/-- Whether a line holds what it is meant to hold. -/
def WrittenLine.Valid (l : WrittenLine) : Prop :=
  match l.entry with
  | none => Filler l.text
  | some (key, value) => SpellsEntry key value l.text

def plainLines (lines : List WrittenLine) : List (Text × LineEnd) :=
  lines.map fun l => (l.text, l.stop)

/-- The entries of some lines with the numbers of their lines. -/
def writtenEntries (number : Nat) (lines : List WrittenLine) : List Entry :=
  (lines.zipIdx number).filterMap fun (l, n) =>
    l.entry.map fun (key, value) => { key := key, value := value, line := n }

variable {t u : Text}

/-! ## Blanks -/

theorem dropBlanks_append (hb : AllBlank t) (u : Text) : dropBlanks (t ++ u) = dropBlanks u :=
  List.dropWhile_append_of_pos hb

theorem dropBlanks_of_head (h : ∀ c, t.head? = some c → isBlank c = false) : dropBlanks t = t := by
  cases t with
  | nil => rfl
  | cons c t =>
      have hc : isBlank c = false := h c rfl
      exact List.dropWhile_cons_of_neg (by simp [hc])

theorem oneLine_of_allBlank (h : AllBlank t) : OneLine t :=
  ⟨fun hr => absurd (h _ hr) (by decide), fun hn => absurd (h _ hn) (by decide)⟩

/-! ## Spellings on a line -/

theorem escapeOf_oneLine (c : Char) : OneLine (escapeOf c) := by
  have hletter : escapeLetter c ≠ '\r' ∧ escapeLetter c ≠ '\n' := by
    unfold escapeLetter
    split <;> simp_all
  exact .cons (by decide) (by decide) (.cons hletter.1 hletter.2 .nil)

theorem UnitEscapes.oneLine {us : List UInt16} {v : Text} (h : UnitEscapes us v) : OneLine v := by
  induction h with
  | nil => exact .nil
  | @cons u us a b c d w hhex _ _ ih =>
      have hdigit : ∀ e ∈ [a, b, c, d], e ≠ '\r' ∧ e ≠ '\n' := by
        intro e he
        have hex := List.all_eq_true.mp hhex e he
        exact ⟨isHexDigit_ne hex (by decide), isHexDigit_ne hex (by decide)⟩
      have hdigits : OneLine ([a, b, c, d] ++ w) :=
        .append ⟨fun h => (hdigit _ h).1 rfl, fun h => (hdigit _ h).2 rfl⟩ ih
      exact .cons (by decide) (by decide) (.cons (by decide) (by decide) hdigits)

theorem Spells.oneLine {side : Side} (h : Spells side t u) : OneLine u := by
  induction h with
  | nil => exact .nil
  | escape _ _ ih => exact (escapeOf_oneLine _).append ih
  | raw hc _ ih =>
      refine .cons ?_ ?_ ih
      · rintro rfl
        exact hc (specials_value_subset side (by decide))
      · rintro rfl
        exact hc (specials_value_subset side (by decide))
  | units _ hv _ ih => exact hv.oneLine.append ih

theorem SpellsValue.oneLine (h : SpellsValue t u) : OneLine u := by
  obtain ⟨w, hw, rfl⟩ := h
  refine .append ?_ hw.oneLine
  refine ⟨fun h => ?_, fun h => ?_⟩
  · obtain ⟨c, -, hc⟩ := List.mem_flatMap.mp h
    exact (escapeOf_oneLine c).1 hc
  · obtain ⟨c, -, hc⟩ := List.mem_flatMap.mp h
    exact (escapeOf_oneLine c).2 hc

theorem head?_units {c : Char} {v : Text} (h : UnitEscapes (Utf16.units c) v) (w : Text) :
    (v ++ w).head? = some '\\' := by
  cases hu : Utf16.units c with
  | nil => exact absurd hu (Utf16.units_ne_nil c)
  | cons u us =>
      rw [hu] at h
      cases h
      rfl

/-- A spelling starts with a backslash or with the first character of the text, which
is not special then. -/
theorem Spells.head? {side : Side} (h : Spells side t u) {c : Char} (hc : u.head? = some c) :
    c = '\\' ∨ c ∉ specials side ∧ t.head? = some c := by
  cases h with
  | nil => simp at hc
  | escape => exact .inl (Option.some.inj hc).symm
  | raw hraw =>
      obtain rfl := Option.some.inj hc
      exact .inr ⟨hraw, rfl⟩
  | units _ hv =>
      rw [head?_units hv] at hc
      exact .inl (Option.some.inj hc).symm

theorem SpellsValue.dropBlanks_eq (h : SpellsValue t u) : dropBlanks u = u := by
  refine dropBlanks_of_head fun c hc => ?_
  obtain ⟨w, hw, rfl⟩ := h
  cases hspaces : t.takeWhile (· = ' ') with
  | cons d ds =>
      rw [hspaces] at hc
      obtain rfl : '\\' = c := Option.some.inj hc
      rfl
  | nil =>
      rw [hspaces] at hc
      rcases hw.head? hc with rfl | ⟨hplain, hhead⟩
      · rfl
      · have hspace := List.head?_dropWhile_not (· = ' ') t
        rw [hhead] at hspace
        simp only [specials, List.mem_cons, List.not_mem_nil, or_false, not_or] at hplain
        simp_all [isBlank]

/-- Behind its blanks an entry starts with the key, or with the sign if the key is
empty, and is taken for no comment. -/
theorem dropBlanks_entry {key b₁ k b₂ : Text} {sign : Char} (hb₁ : AllBlank b₁)
    (hk : Spells .key key k) (hb₂ : AllBlank b₂) (hs : sign = '=' ∨ sign = ':') (r : Text) :
    ∃ b, AllBlank b ∧ dropBlanks (b₁ ++ (k ++ (b₂ ++ sign :: r))) = k ++ (b ++ sign :: r) ∧
      isSkipped (k ++ (b ++ sign :: r)) = false := by
  rw [dropBlanks_append hb₁]
  cases k with
  | nil =>
      refine ⟨[], by simp [AllBlank], ?_, ?_⟩
      · rw [List.nil_append, dropBlanks_append hb₂]
        refine dropBlanks_of_head fun c hc => ?_
        obtain rfl := Option.some.inj hc
        rcases hs with rfl | rfl <;> rfl
      · rcases hs with rfl | rfl <;> rfl
  | cons c k =>
      have hc : isBlank c = false ∧ c ≠ '#' ∧ c ≠ '!' := by
        rcases hk.head? rfl with rfl | ⟨hplain, -⟩
        · exact ⟨rfl, by decide, by decide⟩
        · simp only [specials, List.mem_cons, List.not_mem_nil, or_false, not_or] at hplain
          simp_all [isBlank]
      refine ⟨b₂, hb₂, ?_, ?_⟩
      · refine dropBlanks_of_head fun d hd => ?_
        obtain rfl := Option.some.inj hd
        exact hc.1
      · simp [isSkipped, hc]

/-! ## Reading an entry -/

theorem whole_of_plain {p : Char → Prop} (h : ∀ c ∈ t, c ≠ '\\' ∧ p c) : Whole p t := by
  induction t with
  | nil => exact .nil
  | cons c t ih =>
      obtain ⟨hc, hp⟩ := h c List.mem_cons_self
      exact .plain hc hp (ih fun d hd => h d (List.mem_cons_of_mem c hd))

theorem ne_backslash_of_isBlank {c : Char} (h : isBlank c = true) : c ≠ '\\' := by
  rintro rfl
  exact absurd h (by decide)

theorem SpellsValue.whole (h : SpellsValue t u) : Whole (fun _ => True) u := by
  obtain ⟨w, hw, rfl⟩ := h
  refine .append ?_ (hw.whole fun _ _ => trivial)
  induction t.takeWhile (· = ' ') with
  | nil => exact .nil
  | cons c cs ih => exact .pair (escapeLetter c) ih

/-- A key ends neither at a digit of an escape nor at a character that is not special. -/
theorem Spells.whole_key (h : Spells .key t u) : Whole (fun c => endsKey c = false) u := by
  refine h.whole fun c hc => ?_
  rcases hc with hc | hc
  · simp only [specials, List.mem_cons, List.not_mem_nil, or_false, not_or] at hc
    simp_all [endsKey, isSign, isBlank]
  · exact endsKey_of_isHexDigit hc

variable {key value k b b₃ v : Text} {sign : Char}

theorem isContinued_entry (hk : Spells .key key k) (hb : AllBlank b) (hs : sign = '=' ∨ sign = ':')
    (hb₃ : AllBlank b₃) (hv : SpellsValue value v) :
    isContinued (k ++ (b ++ sign :: (b₃ ++ v))) = false := by
  have hblank : ∀ {t}, AllBlank t → Whole (fun _ => True) t := fun ht =>
    whole_of_plain fun c hc => ⟨ne_backslash_of_isBlank (ht c hc), trivial⟩
  have hsign : sign ≠ '\\' := by rcases hs with rfl | rfl <;> decide
  have hwhole : Whole (fun _ => True) (k ++ (b ++ sign :: (b₃ ++ v))) :=
    (hk.whole fun _ _ => trivial).append
      ((hblank hb).append (.plain hsign trivial ((hblank hb₃).append hv.whole)))
  rw [isContinued_eq_foldl, hwhole.foldl_escapes]

theorem splitEntry_entry (hk : Spells .key key k) (hb : AllBlank b) (hs : sign = '=' ∨ sign = ':')
    (hb₃ : AllBlank b₃) (hv : SpellsValue value v) :
    splitEntry (k ++ (b ++ sign :: (b₃ ++ v))) = (k, v) := by
  have hsign : isSign sign = true := by rcases hs with rfl | rfl <;> rfl
  have hcut : cutKey false (b ++ sign :: (b₃ ++ v)) = ([], b ++ sign :: (b₃ ++ v)) := by
    cases b with
    | nil => exact cutKey_of_endsKey (by simp [endsKey, hsign]) _
    | cons c b => exact cutKey_of_endsKey (by simp [endsKey, hb c List.mem_cons_self]) _
  have hdrop : dropSeparator (b ++ sign :: (b₃ ++ v)) = v := by
    have hhead : dropBlanks (sign :: (b₃ ++ v)) = sign :: (b₃ ++ v) := by
      refine dropBlanks_of_head fun c hc => ?_
      obtain rfl := Option.some.inj hc
      rcases hs with rfl | rfl <;> rfl
    rw [dropSeparator, dropBlanks_append hb, hhead]
    simp only [hsign, if_true]
    rw [dropBlanks_append hb₃, hv.dropBlanks_eq]
  rw [splitEntry, cutKey_whole hk.whole_key, hcut, List.append_nil, hdrop]

theorem readEntry_entry (hk : Spells .key key k) (hb : AllBlank b) (hs : sign = '=' ∨ sign = ':')
    (hb₃ : AllBlank b₃) (hv : SpellsValue value v) (number : Nat) :
    readEntry ⟨number, k ++ (b ++ sign :: (b₃ ++ v))⟩ = .ok ⟨key, value, number⟩ := by
  simp only [readEntry, splitEntry_entry hk hb hs hb₃ hv, readSide, unescape_spells hk,
    unescape_spellsValue hv]

/-! ## Reading a file -/

theorem Filler.isSkipped (h : Filler t) : isSkipped (dropBlanks t) = true := by
  cases h with
  | blank hb =>
      have hnil : dropBlanks t = [] := by
        rw [← List.append_nil t, dropBlanks_append hb]
        rfl
      rw [hnil]
      rfl
  | comment hb hm _ =>
      rw [dropBlanks_append hb]
      rcases hm with rfl | rfl <;> rfl

theorem Filler.oneLine (h : Filler t) : OneLine t := by
  cases h with
  | blank hb => exact oneLine_of_allBlank hb
  | comment hb hm ht =>
      refine (oneLine_of_allBlank hb).append ?_
      rcases hm with rfl | rfl <;> exact .cons (by decide) (by decide) ht

theorem SpellsEntry.oneLine (h : SpellsEntry key value t) : OneLine t := by
  obtain ⟨hb₁, hk, hb₂, hs, hb₃, hv⟩ := h
  refine (oneLine_of_allBlank hb₁).append (hk.oneLine.append ((oneLine_of_allBlank hb₂).append ?_))
  have hrest := (oneLine_of_allBlank hb₃).append hv.oneLine
  rcases hs with rfl | rfl <;> exact .cons (by decide) (by decide) hrest

theorem WrittenLine.Valid.oneLine {l : WrittenLine} (h : l.Valid) : OneLine l.text := by
  unfold WrittenLine.Valid at h
  split at h
  · exact Filler.oneLine h
  · exact SpellsEntry.oneLine h

theorem logicalLinesFrom_filler (h : Filler t) (number : Nat) (rest : List Text) :
    logicalLinesFrom number none (t :: rest) = logicalLinesFrom (number + 1) none rest := by
  simp [logicalLinesFrom, LogicalLine.extend?, h.isSkipped]

/-- A line with an entry is a logical line of its own, from which the entry is read. -/
theorem logicalLinesFrom_entry (h : SpellsEntry key value t) (number : Nat) (rest : List Text) :
    ∃ line, logicalLinesFrom number none (t :: rest) =
        line :: logicalLinesFrom (number + 1) none rest ∧
      readEntry line = .ok ⟨key, value, number⟩ := by
  cases h with
  | @mk b₁ k b₂ b₃ v sign hb₁ hk hb₂ hs hb₃ hv =>
      obtain ⟨b, hb, hdrop, hskip⟩ := dropBlanks_entry hb₁ hk hb₂ hs (b₃ ++ v)
      refine ⟨⟨number, k ++ (b ++ sign :: (b₃ ++ v))⟩, ?_, readEntry_entry hk hb hs hb₃ hv number⟩
      simp [logicalLinesFrom, LogicalLine.extend?, hdrop, hskip,
        isContinued_entry hk hb hs hb₃ hv]

theorem readEntries_lines {lines : List WrittenLine} (h : ∀ l ∈ lines, l.Valid) (number : Nat) :
    readEntries (logicalLinesFrom number none (lines.map WrittenLine.text)) =
      .ok (writtenEntries number lines) := by
  induction lines generalizing number with
  | nil => rfl
  | cons l lines ih =>
      have hl := h l List.mem_cons_self
      have hrest := ih (fun m hm => h m (List.mem_cons_of_mem l hm)) (number + 1)
      unfold WrittenLine.Valid at hl
      rw [List.map_cons]
      cases hentry : l.entry with
      | none =>
          rw [hentry] at hl
          rw [logicalLinesFrom_filler hl, hrest]
          simp [writtenEntries, hentry]
      | some e =>
          obtain ⟨key, value⟩ := e
          rw [hentry] at hl
          obtain ⟨line, hlines, hread⟩ :=
            logicalLinesFrom_entry hl number (lines.map WrittenLine.text)
          rw [hlines, readEntries, hread, hrest]
          simp [writtenEntries, hentry, Except.map]

/-- Every layout of a bundle is read back: the text defines its entries in order,
each on the line where it stands. -/
theorem parse_layout (lines : List WrittenLine) (hvalid : ∀ l ∈ lines, l.Valid)
    (hsep : Separated (plainLines lines)) :
    parse (joinLines (plainLines lines)) = .ok (Bundle.ofEntries (writtenEntries 1 lines)) := by
  have hone : ∀ l ∈ plainLines lines, OneLine l.1 := by
    intro l hl
    obtain ⟨m, hm, rfl⟩ := List.mem_map.mp hl
    exact (hvalid m hm).oneLine
  have hnatural : naturalLines (joinLines (plainLines lines)) = lines.map WrittenLine.text := by
    rw [naturalLines_joinLines hone hsep, plainLines, List.map_map]
    rfl
  rw [parse, logicalLines, hnatural, readEntries_lines hvalid]
  rfl

/-- An entry behind a comment that ends in a backslash and a line without text.  The
key holds a sign and a blank; the value starts with a space and ends in a backslash. -/
def tangledLines : List WrittenLine := [
  { text := "  # a \\", stop := .cr, entry := none },
  { text := [], stop := .crlf, entry := none },
  { text := "\ta\\=\\ b :  \\ \\uD83d\\uDe00\\\\", stop := .lf, entry := some ("a= b", " 😀\\") }]

theorem valid_tangledLines : ∀ l ∈ tangledLines, l.Valid := by
  have hspaces : AllBlank [' ', ' '] := by simp [AllBlank, isBlank]
  have hspace : AllBlank [' '] := by simp [AllBlank, isBlank]
  have htab : AllBlank ['\t'] := by simp [AllBlank, isBlank]
  have hcomment : Filler "  # a \\" := by
    have hnote : OneLine [' ', 'a', ' ', '\\'] := ⟨by decide, by decide⟩
    exact .comment hspaces (.inl rfl) hnote
  have hkey : Spells .key "a= b" "a\\=\\ b" :=
    .raw (by decide) (.escape (by decide) (.escape (by decide) (.raw (by decide) .nil)))
  have hpair : UnitEscapes (Utf16.units '😀') "\\uD83d\\uDe00" :=
    .cons (by decide) (by decide) (.cons (by decide) (by decide) .nil)
  have hvalue : SpellsValue " 😀\\" "\\ \\uD83d\\uDe00\\\\" :=
    ⟨_, .units (by decide) hpair (.escape (by decide) .nil), rfl⟩
  intro l hl
  simp only [tangledLines, List.mem_cons, List.not_mem_nil, or_false] at hl
  rcases hl with rfl | rfl | rfl
  · exact hcomment
  · exact .blank (by simp [AllBlank])
  · exact .mk htab hkey hspace (.inr rfl) hspaces hvalue

theorem separated_tangledLines : Separated (plainLines tangledLines) := by
  simp [Separated, plainLines, tangledLines]

theorem parse_tangledLines :
    parse "  # a \\\r\r\n\ta\\=\\ b :  \\ \\uD83d\\uDe00\\\\\n" =
      .ok (Bundle.ofEntries [⟨"a= b", " 😀\\", 3⟩]) :=
  parse_layout tangledLines valid_tangledLines separated_tangledLines

end ResourceBundles.Properties
