import ResourceBundles.Proofs.Properties.Lines

/-!
# Lines and their ends

A text is put together from lines with their ends and perhaps a last line without one.  As
long as no carriage return meets a line feed that ends an empty line, these are its natural
lines, and there is one such way to put a text together.
-/

namespace ResourceBundles.Properties

/-- Lines with their ends, and perhaps one more line that the end of the text ends. -/
structure EndedLines where
  ended : List (Text × LineEnd)
  last : Option Text

namespace EndedLines

def lines (d : EndedLines) : List Text := d.ended.map Prod.fst ++ d.last.toList

def text (d : EndedLines) : Text := joinLines d.ended ++ d.last.getD []

structure Valid (d : EndedLines) : Prop where
  oneLine : ∀ l ∈ d.lines, OneLine l
  separated : Separated d.ended
  last_ne_nil : ∀ l ∈ d.last, l ≠ []

def cons (l : Text) (stop : LineEnd) (d : EndedLines) : EndedLines :=
  { d with ended := (l, stop) :: d.ended }

/-- The first line, or the last one if there is no other, has one more character in front. -/
def push (c : Char) : EndedLines → EndedLines
  | ⟨[], last⟩ => ⟨[], some (c :: last.getD [])⟩
  | ⟨(l, stop) :: ls, last⟩ => ⟨(c :: l, stop) :: ls, last⟩

variable {d e : EndedLines} {l t : Text} {last : Option Text} {stop : LineEnd} {c : Char}

@[simp] theorem text_cons : (d.cons l stop).text = l ++ (stop.text ++ d.text) := by
  simp [text, cons, joinLines]

@[simp] theorem lines_cons : (d.cons l stop).lines = l :: d.lines := rfl

@[simp] theorem text_push : (d.push c).text = c :: d.text := by
  obtain ⟨_ | ⟨⟨l, stop⟩, ls⟩, last⟩ := d <;> simp [push, text, joinLines]

/-- Lines in front of others, down to the line without an end. -/
@[elab_as_elim]
theorem cons_induction {motive : EndedLines → Prop} (last : ∀ last, motive ⟨[], last⟩)
    (cons : ∀ l stop d, motive d → motive (cons l stop d)) (d : EndedLines) : motive d := by
  obtain ⟨ls, l⟩ := d
  induction ls with
  | nil => exact last l
  | cons m ms ih => exact cons m.1 m.2 ⟨ms, l⟩ ih

/-! ## Valid lines -/

theorem valid_nil : (⟨[], none⟩ : EndedLines).Valid := ⟨by simp [lines], .nil, by simp⟩

theorem Valid.tail (h : (d.cons l stop).Valid) : d.Valid where
  oneLine := fun m hm => h.oneLine m (List.mem_cons_of_mem l hm)
  separated := h.separated.tail
  last_ne_nil := h.last_ne_nil

/-- Valid lines make a text with a line feed in front only if they begin with an empty line
that ends in it. -/
theorem Valid.ended_of_head? (h : d.Valid) (hhead : d.text.head? = some '\n') :
    d.ended.head? = some ([], .lf) := by
  obtain ⟨_ | ⟨m, ms⟩, last⟩ := d
  · cases last with
    | none => simp [text, joinLines] at hhead
    | some l =>
        -- A last line is no line end.
        have hl : OneLine l := h.oneLine l (by simp [lines])
        have hne := hl.head?_append_ne (t := []) (h.last_ne_nil l rfl)
        rw [List.append_nil] at hne
        exact absurd hhead hne
  · have hm : OneLine m.1 := h.oneLine m.1 (by simp [lines])
    have hne : joinLines (m :: ms) ≠ [] := by
      have hstop : m.2.text ≠ [] := by cases m.2 <;> simp [LineEnd.text]
      simp [joinLines, hstop]
    have hfirst : (joinLines (m :: ms)).head? = some '\n' := by
      rwa [text, List.head?_append_of_ne_nil _ hne] at hhead
    rw [head?_joinLines hm hfirst, List.head?_cons]

theorem valid_cons_iff : (d.cons l stop).Valid ↔
    OneLine l ∧ d.Valid ∧ (stop = .cr → d.text.head? ≠ some '\n') := by
  constructor
  · intro h
    refine ⟨h.oneLine l List.mem_cons_self, h.tail, ?_⟩
    rintro rfl hhead
    obtain ⟨ms, hms⟩ := List.head?_eq_some_iff.mp (h.tail.ended_of_head? hhead)
    have hsep : Separated ((l, .cr) :: ([], .lf) :: ms) := hms ▸ h.separated
    exact (List.isChain_cons_cons.mp hsep).1 ⟨rfl, rfl⟩
  · rintro ⟨hl, hd, hcr⟩
    refine ⟨List.forall_mem_cons.mpr ⟨hl, hd.oneLine⟩, ?_, hd.last_ne_nil⟩
    apply List.isChain_cons.mpr
    refine ⟨?_, hd.separated⟩
    rintro ⟨m, mstop⟩ hm ⟨rfl, heq⟩
    obtain ⟨ms, hms⟩ := List.head?_eq_some_iff.mp hm
    refine hcr rfl ?_
    rw [text, hms, heq]
    rfl

theorem Valid.oneLine_last (h : (⟨[], last⟩ : EndedLines).Valid) : OneLine (last.getD []) := by
  cases last with
  | none => exact .nil
  | some l => exact h.oneLine l (by simp [lines])

theorem Valid.push (h : d.Valid) (hr : c ≠ '\r') (hn : c ≠ '\n') : (d.push c).Valid := by
  induction d using cons_induction with
  | last last =>
      have hlast := OneLine.cons hr hn h.oneLine_last
      exact ⟨by simpa [EndedLines.push, lines] using hlast, .nil, by simp [EndedLines.push]⟩
  | cons l stop d _ =>
      obtain ⟨hl, hrest⟩ := valid_cons_iff.mp h
      exact valid_cons_iff.mpr ⟨.cons hr hn hl, hrest⟩

/-! ## Putting together and taking apart -/

theorem Valid.naturalLines_text (h : d.Valid) : naturalLines d.text = d.lines := by
  induction d using cons_induction with
  | last last =>
      have hone := h.oneLine_last
      cases last with
      | none => rfl
      | some l =>
          have hline := naturalLines_append_foldr hone []
          rw [List.append_nil] at hline
          exact hline.trans (foldr_pushChar_nil (h.last_ne_nil l rfl))
  | cons l stop d ih =>
      obtain ⟨hl, hrest, hcr⟩ := valid_cons_iff.mp h
      rw [text_cons, naturalLines_append hl (naturalLines_stop hcr), ih hrest, lines_cons]

/-- By induction over the natural lines of the text. -/
theorem exists_valid_text (t : Text) : ∃ d : EndedLines, d.Valid ∧ d.text = t := by
  fun_induction naturalLines t with
  | case1 => exact ⟨⟨[], none⟩, valid_nil, rfl⟩
  | case2 u ih =>
      obtain ⟨d, hd, rfl⟩ := ih
      exact ⟨d.cons [] .crlf, valid_cons_iff.mpr ⟨.nil, hd, by simp⟩, text_cons⟩
  | case3 u hu ih =>
      obtain ⟨d, hd, rfl⟩ := ih
      refine ⟨d.cons [] .cr, valid_cons_iff.mpr ⟨.nil, hd, fun _ hhead => ?_⟩, text_cons⟩
      obtain ⟨v, hv⟩ := List.head?_eq_some_iff.mp hhead
      exact hu v hv
  | case4 u ih =>
      obtain ⟨d, hd, rfl⟩ := ih
      exact ⟨d.cons [] .lf, valid_cons_iff.mpr ⟨.nil, hd, by simp⟩, text_cons⟩
  | case5 c u _ hr hn ih =>
      have hr' : c ≠ '\r' := hr
      obtain ⟨d, hd, rfl⟩ := ih
      exact ⟨d.push c, hd.push hr' hn, text_push⟩

/-- A line feed behind a carriage return belongs to it. -/
theorem stop_append_inj {stop' : LineEnd} {u : Text} (ht : stop = .cr → t.head? ≠ some '\n')
    (hu : stop' = .cr → u.head? ≠ some '\n') (h : stop.text ++ t = stop'.text ++ u) :
    stop = stop' ∧ t = u := by
  cases stop with
  | lf => cases stop' <;> simp_all [LineEnd.text]
  | crlf =>
      cases stop' with
      | lf => simp [LineEnd.text] at h
      | crlf => simpa [LineEnd.text] using h
      | cr =>
          obtain rfl : '\n' :: t = u := (List.cons.inj h).2
          exact absurd rfl (hu rfl)
  | cr =>
      cases stop' with
      | lf => simp [LineEnd.text] at h
      | crlf =>
          obtain rfl : t = '\n' :: u := (List.cons.inj h).2
          exact absurd rfl (ht rfl)
      | cr => simpa [LineEnd.text] using h

theorem text_cons_ne_last {last : Option Text} (hlines : (d.cons l stop).lines = last.toList) :
    (d.cons l stop).text ≠ last.getD [] := by
  cases last with
  | none => simp at hlines
  | some m =>
      obtain ⟨rfl, -⟩ := List.cons.inj hlines
      cases stop <;> simp [LineEnd.text]

/-- By induction over the lines, whose texts are the natural lines of both. -/
theorem Valid.eq_of_text_eq (hd : d.Valid) (he : e.Valid) (h : d.text = e.text) : d = e := by
  have hlines : d.lines = e.lines := by
    rw [← hd.naturalLines_text, h, he.naturalLines_text]
  induction d using cons_induction generalizing e with
  | last last =>
      induction e using cons_induction with
      | last last' => cases last <;> cases last' <;> simp_all [lines]
      | cons m stop e _ => exact absurd h.symm (text_cons_ne_last hlines.symm)
  | cons l stop d ih =>
      induction e using cons_induction with
      | last last' => exact absurd h (text_cons_ne_last hlines)
      | cons m stop' e _ =>
          obtain ⟨rfl, hrest⟩ := List.cons.inj hlines
          obtain ⟨-, hd', hcr⟩ := valid_cons_iff.mp hd
          obtain ⟨-, he', hcr'⟩ := valid_cons_iff.mp he
          rw [text_cons, text_cons] at h
          obtain ⟨rfl, htext⟩ := stop_append_inj hcr hcr' (List.append_cancel_left h)
          rw [ih hd' he' htext hrest]

end EndedLines

/-- Valid lines with their ends are the natural lines of their text, and every text has one
choice of ends that puts it together from its natural lines. -/
theorem naturalLines_ended :
    (∀ d : EndedLines, d.Valid → naturalLines d.text = d.lines) ∧
      ∀ t, ∃ d : EndedLines, d.Valid ∧ d.lines = naturalLines t ∧ d.text = t ∧
        ∀ e : EndedLines, e.Valid → e.text = t → e = d := by
  refine ⟨fun d hd => hd.naturalLines_text, fun t => ?_⟩
  obtain ⟨d, hd, rfl⟩ := EndedLines.exists_valid_text t
  exact ⟨d, hd, hd.naturalLines_text.symm, rfl, fun e he h => he.eq_of_text_eq hd h⟩

/-- Two empty lines stand behind a carriage return, the second one with both line ends. -/
def tangledEnds : EndedLines where
  ended := [("é".toList, .cr), ([], .cr), ([], .crlf), ("k = v".toList, .lf), ([], .lf)]
  last := some " 😀".toList

theorem naturalLines_tangledEnds :
    tangledEnds.Valid ∧ tangledEnds.text = "é\r\r\r\nk = v\n\n 😀" ∧
      naturalLines tangledEnds.text =
        ["é".toList, [], [], "k = v".toList, [], " 😀".toList] := by
  have hvalid : tangledEnds.Valid := by
    refine ⟨?_, ?_, ?_⟩
    · unfold OneLine
      decide
    · unfold Separated
      decide
    · decide
  exact ⟨hvalid, by decide, naturalLines_ended.1 tangledEnds hvalid⟩

end ResourceBundles.Properties
