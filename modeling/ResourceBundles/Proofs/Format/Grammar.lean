import ResourceBundles.Format.Specifier

/-!
# The grammar of specifiers

A regular expression reads a text in several ways, of which it prefers the first:
an optional part is taken before it is left out, and a repeated part takes as many
characters as it can.  The reader of specifiers never has to try a second way, and
the scan of a format finds the leftmost specifiers that do not overlap.
-/

namespace ResourceBundles

/-- The ways in which something can be read from the start of a text, the preferred
one first, each with the text behind it. -/
abbrev Reader (α : Type) := Text → List (α × Text)

namespace Reader

variable {α β : Type}

def one (p : Char → Bool) : Reader Char
  | [] => []
  | c :: t => if p c then [(c, t)] else []

def many1 (p : Char → Bool) : Reader Text
  | [] => []
  | c :: t => if p c then (many1 p t ++ [([], t)]).map fun (x : Text × Text) => (c :: x.1, x.2) else []

def many (p : Char → Bool) : Reader Text := fun t => many1 p t ++ [([], t)]

def maybe (r : Reader α) : Reader (Option α) := fun t =>
  (r t).map (fun x => (some x.1, x.2)) ++ [(none, t)]

def seq (r : Reader α) (r' : Reader β) : Reader (α × β) := fun t =>
  (r t).flatMap fun x => (r' x.2).map fun y => ((x.1, y.1), y.2)

def map (f : α → β) (r : Reader α) : Reader β := fun t => (r t).map fun x => (f x.1, x.2)

/-- What a reader finds in a text from left to right: it takes the preferred way at
every place where there is one, and goes on behind it. -/
inductive Matches (r : Reader α) : Text → List α → Prop
  | done : Matches r [] []
  | miss {c : Char} {t : Text} {as : List α} (h : r (c :: t) = []) (hrest : Matches r t as) :
      Matches r (c :: t) as
  | hit {c : Char} {t u : Text} {a : α} {as : List α} (h : (r (c :: t)).head? = some (a, u))
      (hrest : Matches r u as) : Matches r (c :: t) (a :: as)

theorem Matches.unique {r : Reader α} {t : Text} {as bs : List α} (ha : r.Matches t as)
    (hb : r.Matches t bs) : as = bs := by
  induction ha generalizing bs with
  | done =>
      cases hb
      rfl
  | miss h _ ih =>
      cases hb with
      | miss _ hrest => exact ih hrest
      | hit h' _ => simp [h] at h'
  | hit h _ ih =>
      cases hb with
      | miss h' _ => simp [h'] at h
      | hit h' hrest =>
          obtain ⟨rfl, rfl⟩ := Prod.mk.inj (Option.some.inj (h.symm.trans h'))
          rw [ih hrest]

theorem head?_map (f : α → β) (r : Reader α) (t : Text) :
    (r.map f t).head? = (r t).head?.map fun x => (f x.1, x.2) :=
  List.head?_map

/-- The first way through two parts starts with the first way through the first part
if the second part fails behind every other way as soon as it fails there. -/
theorem head?_seq {r : Reader α} {r' : Reader β} {t u : Text} {a : α}
    {others : List (α × Text)} (h : r t = (a, u) :: others)
    (hothers : ∀ x ∈ others, r' u = [] → r' x.2 = []) :
    (r.seq r' t).head? = (r' u).head?.map fun y => ((a, y.1), y.2) := by
  rw [seq, h, List.flatMap_cons]
  cases hu : r' u with
  | nil =>
      have hnil : (others.flatMap fun x => (r' x.2).map fun y => ((x.1, y.1), y.2)) = [] := by
        rw [List.flatMap_eq_nil_iff]
        intro x hx
        rw [hothers x hx hu, List.map_nil]
      rw [hnil]
      rfl
  | cons y ys => rfl

/-- A run of characters is first read whole; every other way stops inside it. -/
theorem many_eq (p : Char → Bool) (t : Text) :
    ∃ others, many p t = (t.takeWhile p, t.dropWhile p) :: others ∧
      ∀ x ∈ others, ∃ c cs, p c = true ∧ (∀ d ∈ cs, p d = true) ∧
        x.2 = c :: cs ++ t.dropWhile p := by
  induction t with
  | nil => exact ⟨[], rfl, by simp⟩
  | cons c t ih =>
      obtain ⟨others, hmany, hothers⟩ := ih
      rw [many] at hmany
      cases hc : p c with
      | false => exact ⟨[], by simp [many, many1, hc], by simp⟩
      | true =>
          refine ⟨others.map (fun x => (c :: x.1, x.2)) ++ [([], c :: t)], ?_, ?_⟩
          · simp [many, many1, hc, hmany]
          · intro x hx
            rw [List.dropWhile_cons_of_pos hc]
            rcases List.mem_append.mp hx with hx | hx
            · obtain ⟨y, hy, rfl⟩ := List.mem_map.mp hx
              exact hothers y hy
            · rw [List.mem_singleton.mp hx]
              refine ⟨c, t.takeWhile p, hc, fun d hd => ?_, ?_⟩
              · exact List.all_eq_true.mp List.all_takeWhile d hd
              · rw [List.cons_append, List.takeWhile_append_dropWhile]

theorem many1_eq {p : Char → Bool} {c : Char} (hc : p c = true) (t : Text) :
    ∃ others, many1 p (c :: t) = (c :: t.takeWhile p, t.dropWhile p) :: others ∧
      ∀ x ∈ others, ∃ d u, p d = true ∧ x.2 = d :: u := by
  obtain ⟨others, hmany, hothers⟩ := many_eq p t
  rw [many] at hmany
  refine ⟨others.map (fun x => (c :: x.1, x.2)), by simp [many1, hc, hmany], ?_⟩
  intro x hx
  obtain ⟨y, hy, rfl⟩ := List.mem_map.mp hx
  obtain ⟨d, ds, hd, -, hy⟩ := hothers y hy
  exact ⟨d, _, hd, hy⟩

end Reader

namespace Specifier

open Reader

def indexPart : Reader Text := ((many1 Char.isDigit).seq (one (· == '$'))).map Prod.fst

def precisionPart : Reader Text := ((one (· == '.')).seq (many1 Char.isDigit)).map Prod.snd

/-- The end of a specifier: `([tT])?([a-zA-Z%])`. -/
def fromMark : Reader (Option Char × Char) := (one isDateMark).maybe.seq (one isConversion)

def fromPrecision : Reader (Option Text × Option Char × Char) :=
  precisionPart.maybe.seq fromMark

def fromWidth : Reader (Option Text × Option Text × Option Char × Char) :=
  (many1 Char.isDigit).maybe.seq fromPrecision

def fromFlags : Reader (Text × Option Text × Option Text × Option Char × Char) :=
  (many isFlag).seq fromWidth

/-- The regular expression
`%([0-9]+\$)?([-#+ 0,(<]*)([0-9]+)?(\.[0-9]+)?([tT])?([a-zA-Z%])`. -/
def grammar : Reader Specifier :=
  ((one (· == '%')).seq (indexPart.maybe.seq fromFlags)).map
    fun (_, index, flags, width, precision, dateMark, conversion) =>
      { index := index, flags := flags, width := width.getD [], precision := precision
        dateMark := dateMark, conversion := conversion }

/-! ## Where a part cannot start -/

theorem isConversion_of_isDateMark {c : Char} (h : isDateMark c = true) :
    isConversion c = true := by
  rcases (by simpa [isDateMark] using h : c = 't' ∨ c = 'T') with rfl | rfl <;> decide

theorem isConversion_digit {c : Char} (h : c.isDigit = true) : isConversion c = false := by
  have hc : c ≠ '%' := by
    rintro rfl
    simp at h
  have hle : c.val ≤ 57 := (Char.isDigit_iff_toNat.mp h).2
  have hupper : ¬65 ≤ c.val := by
    intro hc
    exact absurd (UInt32.le_trans hc hle) (by decide)
  have hlower : ¬97 ≤ c.val := by
    intro hc
    exact absurd (UInt32.le_trans hc hle) (by decide)
  have ha : c.isAlpha = false := by
    change (decide (65 ≤ c.val ∧ c.val ≤ 90) ||
      decide (97 ≤ c.val) && decide (c.val ≤ 122)) = false
    simp [hupper, hlower]
  simp [isConversion, ha, hc]

theorem isConversion_flag {c : Char} (h : isFlag c = true) : isConversion c = false := by
  simp only [isFlag, List.contains_iff_mem, List.mem_cons, List.not_mem_nil, or_false] at h
  rcases h with rfl | rfl | rfl | rfl | rfl | rfl | rfl | rfl <;> decide

theorem ne_point_of_isDigit {c : Char} (h : c.isDigit = true) : c ≠ '.' := by
  rintro rfl
  simp at h

theorem ne_point_of_isFlag {c : Char} (h : isFlag c = true) : c ≠ '.' := by
  rintro rfl
  simp [isFlag] at h

theorem fromMark_eq_nil {c : Char} (h : isConversion c = false) (t : Text) :
    fromMark (c :: t) = [] := by
  have hm : isDateMark c = false := by
    cases hm : isDateMark c with
    | false => rfl
    | true => rw [isConversion_of_isDateMark hm] at h; exact h
  simp [fromMark, seq, maybe, one, h, hm]

theorem fromPrecision_eq_nil {c : Char} (h : isConversion c = false) (hp : c ≠ '.') (t : Text) :
    fromPrecision (c :: t) = [] := by
  simp [fromPrecision, precisionPart, seq, maybe, one, Reader.map, hp, fromMark_eq_nil h]

/-! ## The preferred way -/

theorem head?_fromMark (t : Text) :
    (fromMark t).head? = (readConversion t).map fun (m, c, u) => ((m, c), u) := by
  match t with
  | [] => rfl
  | [c] =>
      cases hm : isDateMark c <;> cases hc : isConversion c <;>
        simp [fromMark, seq, maybe, one, readConversion, hm, hc]
  | c :: d :: u =>
      cases hm : isDateMark c <;> cases hc : isConversion c <;> cases hd : isConversion d <;>
        simp [fromMark, seq, maybe, one, readConversion, hm, hc, hd]

theorem readPrecision_cases (t : Text) :
    (∃ c u, c.isDigit = true ∧ t = '.' :: c :: u) ∨
      (precisionPart t = [] ∧ readPrecision t = (none, t)) := by
  rcases t with _ | ⟨c, _ | ⟨d, u⟩⟩
  · exact .inr ⟨rfl, rfl⟩
  · right
    by_cases hc : c = '.' <;>
      simp [precisionPart, Reader.map, seq, one, many1, readPrecision, hc]
  · by_cases hc : c = '.'
    · subst hc
      cases hd : d.isDigit with
      | true => exact .inl ⟨d, u, hd, rfl⟩
      | false =>
          right
          simp [precisionPart, Reader.map, seq, one, many1, readPrecision, hd]
    · right
      simp [precisionPart, Reader.map, seq, one, readPrecision, hc]

/-- Behind a whole run of digits a precision ends, and nowhere before. -/
theorem head?_fromPrecision (t : Text) :
    (fromPrecision t).head? =
      (fromMark (readPrecision t).2).head?.map fun y => (((readPrecision t).1, y.1), y.2) := by
  rcases readPrecision_cases t with ⟨c, u, hc, rfl⟩ | ⟨hpart, hread⟩
  · obtain ⟨others, hmany, hothers⟩ := many1_eq hc u
    have hpart : precisionPart ('.' :: c :: u) =
        (c :: u.takeWhile Char.isDigit, u.dropWhile Char.isDigit) :: others := by
      simp [precisionPart, Reader.map, seq, one, hmany, Function.comp_def]
    have hread : readPrecision ('.' :: c :: u) =
        (some (c :: u.takeWhile Char.isDigit), u.dropWhile Char.isDigit) := by
      simp [readPrecision, hc]
    rw [hread]
    refine head?_seq (by rw [maybe, hpart]; rfl) ?_
    intro x hx _
    rcases List.mem_append.mp hx with hx | hx
    · obtain ⟨y, hy, rfl⟩ := List.mem_map.mp hx
      obtain ⟨d, v, hd, hy⟩ := hothers y hy
      rw [hy]
      exact fromMark_eq_nil (isConversion_digit hd) v
    · rw [List.mem_singleton.mp hx]
      exact fromMark_eq_nil (by decide) _
  · rw [hread]
    exact head?_seq (by rw [maybe, hpart]; rfl) (by simp)

theorem head?_fromWidth (t : Text) :
    ∃ width : Option Text, width.getD [] = t.takeWhile Char.isDigit ∧
      (fromWidth t).head? =
        (fromPrecision (t.dropWhile Char.isDigit)).head?.map fun y => ((width, y.1), y.2) := by
  cases t with
  | nil => exact ⟨none, rfl, head?_seq rfl (by simp)⟩
  | cons c u =>
      cases hc : c.isDigit with
      | false =>
          have hmany : many1 Char.isDigit (c :: u) = [] := by simp [many1, hc]
          refine ⟨none, by simp [hc], ?_⟩
          rw [List.dropWhile_cons_of_neg (by simp [hc])]
          exact head?_seq (by rw [maybe, hmany]; rfl) (by simp)
      | true =>
          obtain ⟨others, hmany, hothers⟩ := many1_eq hc u
          refine ⟨some (c :: u.takeWhile Char.isDigit), by simp [hc], ?_⟩
          rw [List.dropWhile_cons_of_pos hc]
          refine head?_seq (by rw [maybe, hmany]; rfl) ?_
          intro x hx _
          rcases List.mem_append.mp hx with hx | hx
          · obtain ⟨y, hy, rfl⟩ := List.mem_map.mp hx
            obtain ⟨d, v, hd, hy⟩ := hothers y hy
            rw [hy]
            exact fromPrecision_eq_nil (isConversion_digit hd) (ne_point_of_isDigit hd) v
          · rw [List.mem_singleton.mp hx]
            exact fromPrecision_eq_nil (isConversion_digit hc) (ne_point_of_isDigit hc) u

theorem fromWidth_eq_nil_iff (t : Text) :
    fromWidth t = [] ↔ fromPrecision (t.dropWhile Char.isDigit) = [] := by
  obtain ⟨width, -, hhead⟩ := head?_fromWidth t
  rw [← List.head?_eq_none_iff, hhead, Option.map_eq_none_iff, List.head?_eq_none_iff]

/-- Digits among the flags would be read as the width, so flags left over help nowhere. -/
theorem fromWidth_flags_append {cs t : Text} (hcs : ∀ c ∈ cs, isFlag c = true)
    (h : fromWidth t = []) : fromWidth (cs ++ t) = [] := by
  rw [fromWidth_eq_nil_iff] at h ⊢
  induction cs with
  | nil => exact h
  | cons c cs ih =>
      have hc := hcs c List.mem_cons_self
      cases hd : c.isDigit with
      | false =>
          rw [List.cons_append, List.dropWhile_cons_of_neg (by simp [hd])]
          exact fromPrecision_eq_nil (isConversion_flag hc) (ne_point_of_isFlag hc) _
      | true =>
          rw [List.cons_append, List.dropWhile_cons_of_pos hd]
          exact ih fun d hd => hcs d (List.mem_cons_of_mem c hd)

theorem head?_fromFlags (t : Text) :
    (fromFlags t).head? =
      (fromWidth (t.dropWhile isFlag)).head?.map fun y => ((t.takeWhile isFlag, y.1), y.2) := by
  obtain ⟨others, hmany, hothers⟩ := many_eq isFlag t
  refine head?_seq hmany ?_
  intro x hx hnil
  obtain ⟨c, cs, hc, hcs, hx⟩ := hothers x hx
  rw [hx]
  refine fromWidth_flags_append ?_ hnil
  intro d hd
  rcases List.mem_cons.mp hd with rfl | hd
  · exact hc
  · exact hcs d hd

theorem fromFlags_eq_nil_iff (t : Text) :
    fromFlags t = [] ↔ fromWidth (t.dropWhile isFlag) = [] := by
  rw [← List.head?_eq_none_iff, head?_fromFlags, Option.map_eq_none_iff, List.head?_eq_none_iff]

/-- Digits and a dollar sign are an index or nothing. -/
theorem fromFlags_index {ds t : Text} (hds : ∀ d ∈ ds, d.isDigit = true) :
    fromFlags (ds ++ '$' :: t) = [] := by
  rw [fromFlags_eq_nil_iff, fromWidth_eq_nil_iff]
  have hrest : ((ds ++ '$' :: t).dropWhile isFlag).dropWhile Char.isDigit = '$' :: t := by
    induction ds with
    | nil => rfl
    | cons d ds ih =>
        cases hf : isFlag d with
        | false =>
            rw [List.cons_append, List.dropWhile_cons_of_neg (by simp [hf]), ← List.cons_append,
              List.dropWhile_append_of_pos hds]
            rfl
        | true =>
            rw [List.cons_append, List.dropWhile_cons_of_pos hf]
            exact ih fun e he => hds e (List.mem_cons_of_mem d he)
  rw [hrest]
  exact fromPrecision_eq_nil (by decide) (by decide) t

theorem indexPart_eq {c : Char} (hc : c.isDigit = true) (t : Text) :
    indexPart (c :: t) = (one (· == '$') (t.dropWhile Char.isDigit)).map fun y =>
      (c :: t.takeWhile Char.isDigit, y.2) := by
  obtain ⟨others, hmany, hothers⟩ := many1_eq hc t
  have hnil : (others.flatMap fun x =>
      (one (· == '$') x.2).map fun y => ((x.1, y.1), y.2)) = [] := by
    rw [List.flatMap_eq_nil_iff]
    intro x hx
    obtain ⟨d, u, hd, hx⟩ := hothers x hx
    have hne : d ≠ '$' := by
      rintro rfl
      simp at hd
    simp [hx, one, hne]
  rw [indexPart, Reader.map, seq, hmany, List.flatMap_cons, hnil, List.append_nil, List.map_map]
  rfl

theorem readIndex_cases (t : Text) :
    (∃ ds u, (∀ d ∈ ds, d.isDigit = true) ∧ t = ds ++ '$' :: u ∧
      readIndex t = (some ds, u) ∧ indexPart t = [(ds, u)]) ∨
    (readIndex t = (none, t) ∧ indexPart t = []) := by
  cases t with
  | nil => exact .inr ⟨rfl, rfl⟩
  | cons c t =>
      cases hc : c.isDigit with
      | false => exact .inr ⟨by simp [readIndex, hc], by simp [indexPart, Reader.map, seq, many1, hc]⟩
      | true =>
          rw [indexPart_eq hc]
          cases hdrop : t.dropWhile Char.isDigit with
          | nil => exact .inr ⟨by simp [readIndex, hc, hdrop], rfl⟩
          | cons e u =>
              by_cases he : e = '$'
              · subst he
                have hdigits : ∀ d ∈ c :: t.takeWhile Char.isDigit, d.isDigit = true := by
                  intro d hd
                  rcases List.mem_cons.mp hd with rfl | hd
                  · exact hc
                  · exact List.all_eq_true.mp List.all_takeWhile d hd
                refine .inl ⟨c :: t.takeWhile Char.isDigit, u, hdigits, ?_, ?_, rfl⟩
                · rw [List.cons_append, ← hdrop, List.takeWhile_append_dropWhile]
                · simp [readIndex, hc, hdrop]
              · exact .inr ⟨by simp [readIndex, hc, hdrop, he], by simp [one, he]⟩

theorem head?_fromIndex (t : Text) :
    (indexPart.maybe.seq fromFlags t).head? =
      (fromFlags (readIndex t).2).head?.map fun y => (((readIndex t).1, y.1), y.2) := by
  rcases readIndex_cases t with ⟨ds, u, hds, rfl, hread, hpart⟩ | ⟨hread, hpart⟩
  · rw [hread]
    refine head?_seq (by rw [maybe, hpart]; rfl) ?_
    intro x hx _
    rw [List.mem_singleton.mp hx]
    exact fromFlags_index hds
  · rw [hread]
    exact head?_seq (by rw [maybe, hpart]; rfl) (by simp)

/-- The reader of specifiers takes the preferred way through the grammar. -/
theorem head?_grammar (t : Text) : (grammar ('%' :: t)).head? = read? t := by
  obtain ⟨width, hwidth, hhead⟩ := head?_fromWidth ((readIndex t).2.dropWhile isFlag)
  rw [grammar, head?_map, head?_seq (r := one (· == '%')) rfl (by simp), head?_fromIndex,
    head?_fromFlags, hhead, head?_fromPrecision, head?_fromMark]
  simp only [read?, ← hwidth, Option.map_map]
  rfl

theorem grammar_eq_nil {c : Char} (h : c ≠ '%') (t : Text) : grammar (c :: t) = [] := by
  simp [grammar, Reader.map, seq, one, h]

/-! ## Scanning -/

/-- The scan finds the leftmost specifiers that do not overlap. -/
theorem matches_scan (t : Text) : grammar.Matches t (scan t) := by
  fun_induction scan t with
  | case1 => exact .done
  | case2 t s rest hread _ ih =>
      exact .hit (by rw [head?_grammar, hread]) ih
  | case3 t hread ih =>
      refine .miss ?_ ih
      rw [← List.head?_eq_none_iff, head?_grammar, hread]
  | case4 c t hc ih => exact .miss (grammar_eq_nil hc t) ih

theorem matches_grammar_iff {t : Text} {ss : List Specifier} :
    grammar.Matches t ss ↔ ss = scan t := by
  constructor
  · intro h
    exact h.unique (matches_scan t)
  · rintro rfl
    exact matches_scan t

end Specifier
end ResourceBundles
