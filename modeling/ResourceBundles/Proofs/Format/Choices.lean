import ResourceBundles.Format.Pattern
import ResourceBundles.Proofs.Text.Trimming
import Mathlib

/-!
# The language of choice styles

Where the quotes of a style are resolved, every other character is quoted or not, and the
bars that are not quoted cut the style into pieces.  A style is accepted exactly if its
pieces are intervals in ascending order, where white space may stand behind the last bar.
-/

namespace ResourceBundles

/-- The place of a limit among the integers and the two infinities. -/
def Limit.value : Limit → WithBot (WithTop ℤ)
  | negInfinity => ⊥
  | finite units => ((units : WithTop ℤ) : WithBot (WithTop ℤ))
  | infinity => ((⊤ : WithTop ℤ) : WithBot (WithTop ℤ))

theorem Limit.lt_iff {a b : Limit} : a.lt b = true ↔ a.value < b.value := by
  cases a with
  | negInfinity => cases b <;> simp [Limit.lt, Limit.value]
  | infinity => cases b <;> simp [Limit.lt, Limit.value]
  | finite m =>
      cases b with
      | negInfinity => simp [Limit.lt, Limit.value]
      | finite n => simp [Limit.lt, Limit.value]
      | infinity => exact iff_of_true rfl (WithBot.coe_lt_coe.mpr (WithTop.coe_lt_top m))

theorem Limit.value_inj {a b : Limit} : a.value = b.value ↔ a = b := by
  cases a <;> cases b <;> simp [Limit.value]

namespace Choice

/-- A limit and whether the interval excludes it, in lexicographic order. -/
def Bound.value (b : Bound) : WithBot (WithTop ℤ) ×ₗ Bool := toLex (b.limit.value, b.exclusive)

theorem Bound.lt_iff {a b : Bound} : a.lt b = true ↔ a.value < b.value := by
  rw [Bound.lt, Bound.value, Bound.value, Prod.Lex.toLex_lt_toLex, ← Limit.lt_iff, Limit.value_inj,
    Bool.lt_iff]
  simp [and_assoc]

/-- A character of a style that is no quote mark. -/
structure Mark where
  char : Char
  quoted : Bool
deriving DecidableEq

def Mark.isRelation (m : Mark) : Bool := !m.quoted && Choice.isRelation m.char

def Mark.isBar (m : Mark) : Bool := !m.quoted && m.char == '|'

/-- The characters of a style without its quotes, of which two in a row mean nothing. -/
def marks (quoted : Bool) : Text → List Mark
  | [] => []
  | '\'' :: '\'' :: t => marks quoted t
  | '\'' :: t => marks (!quoted) t
  | c :: t => ⟨c, quoted⟩ :: marks quoted t

def pieces (style : Text) : List (List Mark) := (marks false style).splitOnP Mark.isBar

/-- The piece has exactly one relation, and a limit stands in front of it. -/
@[mk_iff]
structure IsInterval (piece : List Mark) (b : Bound) : Prop where
  relation : ∃ r, piece.filter Mark.isRelation = [r] ∧ b.exclusive = (r.char == '<')
  limit : Limit.parse? (Text.trim ((piece.takeWhile (!·.isRelation)).map Mark.char)) = some b.limit

/-- The pieces are intervals with the given bounds, but the last one may be white space. -/
inductive Intervals : List (List Mark) → List Bound → Prop
  | last {piece : List Mark} {b : Bound} (h : IsInterval piece b) : Intervals [piece] [b]
  | blank {piece : List Mark} (h : ∀ m ∈ piece, Text.isWhiteSpace m.char = true) :
      Intervals [piece] []
  | cons {piece : List Mark} {pieces : List (List Mark)} {b : Bound} {bounds : List Bound}
      (h : IsInterval piece b) (hrest : Intervals pieces bounds) :
      Intervals (piece :: pieces) (b :: bounds)

/-- The style has at least one interval, and the bounds of its intervals ascend. -/
def IsStyle (style : Text) : Prop :=
  ∃ bounds, Intervals (pieces style) bounds ∧ bounds ≠ [] ∧ (bounds.map Bound.value).SortedLT

namespace Progress

/-- In front of the relation of an interval. -/
def inLimit (limit : Text) (closedOne : Bool) (previous : Option Bound) : Progress :=
  ⟨limit, false, false, closedOne, previous⟩

/-- Behind the relation of an interval. -/
def inInterval (closedOne : Bool) (previous : Option Bound) : Progress :=
  ⟨[], true, false, closedOne, previous⟩

/-- Read a character of which it is known whether it is quoted. -/
def readMark (p : Progress) (m : Mark) : Option Progress :=
  if m.isRelation then p.relate m.char
  else if m.isBar then p.close
  else some (p.keep m.char)

def acceptsMarks (p : Progress) : List Mark → Bool
  | [] => p.complete
  | m :: ms =>
    match p.readMark m with
    | some q => q.acceptsMarks ms
    | none => false

variable {p q : Progress} {t limit : Text} {c : Char} {m : Mark} {piece ms : List Mark}
  {closedOne : Bool} {previous : Option Bound} {b : Bound}

/-! ## Quotes -/

theorem read_eq_readMark (p : Progress) (c : Char) : p.read c = p.readMark ⟨c, p.quoted⟩ := by
  cases hquoted : p.quoted with
  | true => simp [read, readMark, Mark.isRelation, Mark.isBar, hquoted]
  | false => simp [read, readMark, Mark.isRelation, Mark.isBar, hquoted]

/-- No step depends on whether the next character is quoted, or changes it. -/
theorem readMark_quoted (p : Progress) (quoted : Bool) (m : Mark) :
    { p with quoted := quoted }.readMark m =
      (p.readMark m).map fun q => { q with quoted := quoted } := by
  unfold readMark
  split_ifs with hrelation hbar
  · unfold relate
    cases Limit.parse? (Text.trim p.limit) with
    | none => rfl
    | some limit =>
        simp only [Option.bind_some]
        split_ifs <;> rfl
  · unfold close
    simp only
    split_ifs <;> rfl
  · unfold keep
    simp only
    split_ifs <;> rfl

theorem quoted_of_readMark (h : p.readMark m = some q) : q.quoted = p.quoted := by
  have hquoted := readMark_quoted p p.quoted m
  rw [h, Option.map_some, Option.some.injEq] at hquoted
  rw [hquoted]

theorem acceptsMarks_quoted (p : Progress) (quoted : Bool) (ms : List Mark) :
    { p with quoted := quoted }.acceptsMarks ms = p.acceptsMarks ms := by
  induction ms generalizing p with
  | nil => rfl
  | cons m ms ih =>
      rw [acceptsMarks, acceptsMarks, readMark_quoted]
      cases p.readMark m with
      | none => rfl
      | some q => exact ih q

theorem marks_quote (quoted : Bool) (t : Text) : marks quoted ('\'' :: t) = marks (!quoted) t := by
  induction t generalizing quoted with
  | nil => rfl
  | cons c t ih =>
      by_cases hc : c = '\''
      · rw [hc, ih, Bool.not_not, marks]
      · rw [marks]
        simp [hc]

theorem accepts_eq_acceptsMarks (p : Progress) (t : Text) :
    p.accepts t = p.acceptsMarks (marks p.quoted t) := by
  fun_induction p.accepts t with
  | case1 p => rfl
  | case2 p t ih => rw [ih, marks]
  | case3 p t hne ih => rw [ih, marks_quote, acceptsMarks_quoted]
  | case4 p c t hpair hquote q hread ih =>
      rw [read_eq_readMark] at hread
      rw [ih, marks, acceptsMarks, hread, quoted_of_readMark hread]
      · exact hpair
      · exact hquote
  | case5 p c t hpair hquote hread =>
      rw [read_eq_readMark] at hread
      rw [marks, acceptsMarks, hread]
      · exact hpair
      · exact hquote

/-! ## One piece -/

theorem isRelation_of_isBar (h : m.isBar = true) : m.isRelation = false := by
  have hchar : m.char = '|' := by
    rw [Mark.isBar, Bool.and_eq_true, beq_iff_eq] at h
    exact h.2
  rw [Mark.isRelation, hchar, Bool.and_eq_false_iff]
  exact .inr (by decide)

theorem inLimit_nil_iff : (inLimit limit closedOne previous).acceptsMarks [] = true ↔
    closedOne = true ∧ ∀ c ∈ limit, Text.isWhiteSpace c = true := by
  simp [acceptsMarks, complete, inLimit, Text.trim_eq_nil_iff]

theorem inLimit_plain (hrelation : m.isRelation = false) (hbar : m.isBar = false) :
    (inLimit limit closedOne previous).acceptsMarks (m :: ms) =
      (inLimit (limit ++ [m.char]) closedOne previous).acceptsMarks ms := by
  simp [acceptsMarks, readMark, hrelation, hbar, inLimit, keep]

theorem inLimit_relation (hrelation : m.isRelation = true) :
    (inLimit limit closedOne previous).acceptsMarks (m :: ms) = true ↔
      ∃ b : Bound, b.exclusive = (m.char == '<') ∧
        Limit.parse? (Text.trim limit) = some b.limit ∧ previous.all (·.lt b) = true ∧
        (inInterval closedOne (some b)).acceptsMarks ms = true := by
  simp only [acceptsMarks, readMark, hrelation, if_true, relate, inLimit]
  cases Limit.parse? (Text.trim limit) with
  | none => simp
  | some l =>
      constructor
      · intro h
        refine ⟨⟨l, m.char == '<'⟩, rfl, rfl, ?_⟩
        by_cases hlt : previous.all (·.lt ⟨l, m.char == '<'⟩) = true
        · exact ⟨hlt, by simpa [hlt, inInterval] using h⟩
        · simp [hlt] at h
      · rintro ⟨b, hexclusive, hl, hlt, h⟩
        obtain rfl : b = ⟨l, m.char == '<'⟩ := by
          cases b
          simp_all
        simpa [hlt, inInterval] using h

theorem inLimit_bar (hbar : m.isBar = true) :
    (inLimit limit closedOne previous).acceptsMarks (m :: ms) = false := by
  simp [acceptsMarks, readMark, isRelation_of_isBar hbar, hbar, inLimit, close]

theorem inInterval_plain (hrelation : m.isRelation = false) (hbar : m.isBar = false) :
    (inInterval closedOne previous).acceptsMarks (m :: ms) =
      (inInterval closedOne previous).acceptsMarks ms := by
  simp [acceptsMarks, readMark, hrelation, hbar, inInterval, keep]

theorem inInterval_relation (hrelation : m.isRelation = true) :
    (inInterval closedOne previous).acceptsMarks (m :: ms) = false := by
  -- A second relation has an empty limit in front of it.
  have hnone : Limit.parse? [] = none := rfl
  simp [acceptsMarks, readMark, hrelation, inInterval, relate, hnone]

theorem inInterval_bar (hbar : m.isBar = true) :
    (inInterval closedOne previous).acceptsMarks (m :: ms) =
      (inLimit [] true previous).acceptsMarks ms := by
  simp [acceptsMarks, readMark, isRelation_of_isBar hbar, hbar, inInterval, inLimit, close]

theorem inInterval_append (hpiece : ∀ m ∈ piece, m.isBar = false) :
    (inInterval closedOne previous).acceptsMarks (piece ++ ms) = true ↔
      piece.filter Mark.isRelation = [] ∧
        (inInterval closedOne previous).acceptsMarks ms = true := by
  induction piece with
  | nil => simp
  | cons m piece ih =>
      obtain ⟨hbar, hrest⟩ := List.forall_mem_cons.mp hpiece
      rw [List.cons_append]
      cases hrelation : m.isRelation with
      | true => simp [inInterval_relation hrelation, hrelation]
      | false =>
          rw [inInterval_plain hrelation hbar, ih hrest,
            List.filter_cons_of_neg (by simp [hrelation])]

/-- A piece is read to its end if it has one relation behind a limit, or none. -/
theorem inLimit_append (hpiece : ∀ m ∈ piece, m.isBar = false) :
    (inLimit limit closedOne previous).acceptsMarks (piece ++ ms) = true ↔
      (∃ b : Bound, (∃ r, piece.filter Mark.isRelation = [r] ∧ b.exclusive = (r.char == '<')) ∧
        Limit.parse? (Text.trim (limit ++ (piece.takeWhile (!·.isRelation)).map Mark.char)) =
          some b.limit ∧
        previous.all (·.lt b) = true ∧
        (inInterval closedOne (some b)).acceptsMarks ms = true) ∨
      (piece.filter Mark.isRelation = [] ∧
        (inLimit (limit ++ piece.map Mark.char) closedOne previous).acceptsMarks ms = true) := by
  induction piece generalizing limit with
  | nil => simp
  | cons m piece ih =>
      obtain ⟨hbar, hrest⟩ := List.forall_mem_cons.mp hpiece
      rw [List.cons_append]
      cases hrelation : m.isRelation with
      | true =>
          have hfilter : ∀ b : Bound,
              (∃ r, (m :: piece).filter Mark.isRelation = [r] ∧ b.exclusive = (r.char == '<')) ↔
                piece.filter Mark.isRelation = [] ∧ b.exclusive = (m.char == '<') := by
            intro b
            rw [List.filter_cons_of_pos hrelation]
            simp
          have hfront : (m :: piece).takeWhile (!·.isRelation) = [] :=
            List.takeWhile_cons_of_neg (by simp [hrelation])
          simp only [inLimit_relation hrelation, inInterval_append hrest, hfilter, hfront,
            List.map_nil, List.append_nil]
          constructor
          · rintro ⟨b, hexclusive, hl, hlt, hnone, h⟩
            exact .inl ⟨b, ⟨hnone, hexclusive⟩, hl, hlt, h⟩
          · rintro (⟨b, ⟨hnone, hexclusive⟩, hl, hlt, h⟩ | ⟨hnone, -⟩)
            · exact ⟨b, hexclusive, hl, hlt, hnone, h⟩
            · simp [hrelation] at hnone
      | false =>
          rw [inLimit_plain hrelation hbar, ih hrest]
          simp [hrelation]

theorem inLimit_piece (hpiece : ∀ m ∈ piece, m.isBar = false) :
    (inLimit [] closedOne previous).acceptsMarks (piece ++ ms) = true ↔
      (∃ b, IsInterval piece b ∧ previous.all (·.lt b) = true ∧
        (inInterval closedOne (some b)).acceptsMarks ms = true) ∨
      (piece.filter Mark.isRelation = [] ∧
        (inLimit (piece.map Mark.char) closedOne previous).acceptsMarks ms = true) := by
  rw [inLimit_append hpiece]
  simp only [List.nil_append, isInterval_iff, and_assoc]

end Progress

/-! ## All pieces -/

theorem intervals_singleton_iff {piece : List Mark} {bounds : List Bound} :
    Intervals [piece] bounds ↔ (∃ b, IsInterval piece b ∧ bounds = [b]) ∨
      (∀ m ∈ piece, Text.isWhiteSpace m.char = true) ∧ bounds = [] := by
  constructor
  · intro h
    cases h with
    | last h => exact .inl ⟨_, h, rfl⟩
    | blank h => exact .inr ⟨h, rfl⟩
    | cons _ hrest => cases hrest
  · rintro (⟨b, h, rfl⟩ | ⟨h, rfl⟩)
    · exact .last h
    · exact .blank h

theorem intervals_cons_iff {piece : List Mark} {pieces : List (List Mark)} {bounds : List Bound}
    (hne : pieces ≠ []) : Intervals (piece :: pieces) bounds ↔
      ∃ b bs, IsInterval piece b ∧ Intervals pieces bs ∧ bounds = b :: bs := by
  constructor
  · intro h
    cases h with
    | last _ => exact absurd rfl hne
    | blank _ => exact absurd rfl hne
    | cons h hrest => exact ⟨_, _, h, hrest, rfl⟩
  · rintro ⟨b, bs, h, hrest, rfl⟩
    exact .cons h hrest

theorem filter_isRelation_of_blank {piece : List Mark}
    (h : ∀ m ∈ piece, Text.isWhiteSpace m.char = true) : piece.filter Mark.isRelation = [] := by
  rw [List.filter_eq_nil_iff]
  intro m hm hrelation
  have hchar : isRelation m.char = true := by
    rw [Mark.isRelation, Bool.and_eq_true] at hrelation
    exact hrelation.2
  have hblank := h m hm
  simp only [isRelation, Bool.or_eq_true, beq_iff_eq] at hchar
  rcases hchar with (hc | hc) | hc <;>
  · rw [hc] at hblank
    exact absurd hblank (by decide)

/-- The bounds ascend from the one before them, if there is one. -/
def AscendFrom (previous : Option Bound) (bounds : List Bound) : Prop :=
  (previous.toList ++ bounds).IsChain fun a b => a.lt b = true

theorem ascendFrom_cons_iff {previous : Option Bound} {b : Bound} {bs : List Bound} :
    AscendFrom previous (b :: bs) ↔ previous.all (·.lt b) = true ∧ AscendFrom (some b) bs := by
  cases previous with
  | none => simp [AscendFrom]
  | some a => simp [AscendFrom]

theorem ascendFrom_nil (previous : Option Bound) : AscendFrom previous [] := by
  cases previous <;> simp [AscendFrom]

theorem exists_first_bar {ms : List Mark} (h : ∃ m ∈ ms, m.isBar = true) :
    ∃ piece bar rest, ms = piece ++ bar :: rest ∧ bar.isBar = true ∧
      ∀ m ∈ piece, m.isBar = false := by
  obtain ⟨bar, hfind⟩ := Option.isSome_iff_exists.mp (List.find?_isSome.mpr h)
  obtain ⟨hbar, piece, rest, rfl, hpiece⟩ := List.find?_eq_some_iff_append.mp hfind
  exact ⟨piece, bar, rest, rfl, hbar, by simpa using hpiece⟩

@[elab_as_elim]
theorem pieces_induction {motive : List Mark → Prop}
    (last : ∀ piece, (∀ m ∈ piece, m.isBar = false) → motive piece)
    (cons : ∀ piece bar rest, (∀ m ∈ piece, m.isBar = false) → bar.isBar = true →
      motive rest → motive (piece ++ bar :: rest))
    (ms : List Mark) : motive ms := by
  induction hn : ms.length using Nat.strong_induction_on generalizing ms with
  | _ n ih =>
      by_cases h : ∃ m ∈ ms, m.isBar = true
      · obtain ⟨piece, bar, rest, rfl, hbar, hpiece⟩ := exists_first_bar h
        refine cons piece bar rest hpiece hbar (ih rest.length ?_ rest rfl)
        rw [← hn, List.length_append, List.length_cons]
        omega
      · exact last ms (by simpa using h)

/-- The rest of a style from the start of a piece, given the bound of the piece before. -/
theorem acceptsMarks_iff (closedOne : Bool) (previous : Option Bound) (ms : List Mark) :
    (Progress.inLimit [] closedOne previous).acceptsMarks ms = true ↔
      ∃ bounds, Intervals (ms.splitOnP Mark.isBar) bounds ∧ (closedOne = true ∨ bounds ≠ []) ∧
        AscendFrom previous bounds := by
  induction ms using pieces_induction generalizing closedOne previous with
  | last piece hpiece =>
      rw [← List.append_nil piece, Progress.inLimit_piece hpiece, List.append_nil,
        List.splitOnP_eq_singleton hpiece]
      simp only [intervals_singleton_iff]
      constructor
      · rintro (⟨b, hb, hlt, -⟩ | ⟨-, hend⟩)
        · exact ⟨[b], .inl ⟨b, hb, rfl⟩, .inr (List.cons_ne_nil b []),
            ascendFrom_cons_iff.mpr ⟨hlt, ascendFrom_nil _⟩⟩
        · obtain ⟨hone, hblank⟩ := Progress.inLimit_nil_iff.mp hend
          exact ⟨[], .inr ⟨List.forall_mem_map.mp hblank, rfl⟩, .inl hone, ascendFrom_nil _⟩
      · rintro ⟨bounds, ⟨b, hb, rfl⟩ | ⟨hblank, rfl⟩, hone, hascend⟩
        · exact .inl ⟨b, hb, (ascendFrom_cons_iff.mp hascend).1, rfl⟩
        · refine .inr ⟨filter_isRelation_of_blank hblank, Progress.inLimit_nil_iff.mpr ⟨?_, ?_⟩⟩
          · exact hone.resolve_right (absurd rfl)
          · exact List.forall_mem_map.mpr hblank
  | cons piece bar rest hpiece hbar ih =>
      have hne := List.splitOnP_ne_nil Mark.isBar rest
      rw [List.splitOnP_append_cons_of_forall_mem hpiece bar hbar, Progress.inLimit_piece hpiece]
      -- Behind a bar there may be no more bounds, since one interval is closed.
      simp only [Progress.inInterval_bar hbar, Progress.inLimit_bar hbar, ih,
        intervals_cons_iff hne]
      constructor
      · rintro (⟨b, hb, hlt, bs, hbs, -, hascend⟩ | ⟨-, hfalse⟩)
        · exact ⟨b :: bs, ⟨b, bs, hb, hbs, rfl⟩, .inr (List.cons_ne_nil b bs),
            ascendFrom_cons_iff.mpr ⟨hlt, hascend⟩⟩
        · exact absurd hfalse Bool.false_ne_true
      · rintro ⟨_, ⟨b, bs, hb, hbs, rfl⟩, -, hascend⟩
        obtain ⟨hlt, hrest⟩ := ascendFrom_cons_iff.mp hascend
        exact .inl ⟨b, hb, hlt, bs, hbs, .inl trivial, hrest⟩

theorem ascendFrom_none_iff {bounds : List Bound} :
    AscendFrom none bounds ↔ (bounds.map Bound.value).SortedLT := by
  rw [AscendFrom, List.sortedLT_iff_pairwise, ← List.isChain_iff_pairwise, List.isChain_map]
  simp only [Bound.lt_iff, Option.toList_none, List.nil_append]

theorem accepts_iff {style : Text} : accepts style = true ↔ IsStyle style := by
  have h := acceptsMarks_iff false none (marks false style)
  rw [accepts, Progress.accepts_eq_acceptsMarks]
  change (Progress.inLimit [] false none).acceptsMarks (marks false style) = true ↔ _
  rw [h]
  simp [IsStyle, ascendFrom_none_iff, pieces]

/-- A style is accepted exactly if it is a choice style.  A placeholder of the format type
`choice` is read with any choice style, and any other style is its fault. -/
theorem accepts_language (style : Text) :
    (accepts style = true ↔ IsStyle style) ∧
      ∀ index formatType i, Placeholder.readIndex index = .ok i →
        FormatType.parse? formatType = some .choice →
        (IsStyle style →
          Placeholder.ofSegments ⟨index, formatType, style⟩ = .ok ⟨i, .choice, style⟩) ∧
        (¬IsStyle style →
          Placeholder.ofSegments ⟨index, formatType, style⟩ = .error (.invalidChoice style)) := by
  refine ⟨accepts_iff, fun index formatType i hindex htype => ?_⟩
  rw [← accepts_iff]
  simp only [Placeholder.ofSegments, hindex, htype, true_and]
  constructor
  · intro h
    rw [if_neg (by simp [h])]
  · intro h
    rw [if_pos (by simpa using h)]

example : accepts "'-'∞#'#|'|0≤x'|'|1#| " = true := by decide +kernel

end Choice
end ResourceBundles
