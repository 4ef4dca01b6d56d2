import ResourceBundles.Properties.Line
import Mathlib.Algebra.Ring.Parity
import Mathlib.Data.List.Chain
import Mathlib.Data.List.DropRight

/-!
# Natural lines and continuations

A text is made of natural lines and their ends, and it falls back into these lines
as long as no carriage return meets a line feed that ends an empty line.  A natural
line that is not empty stands between two line ends or the ends of the text.  Whether
a line goes on is known from left to right: a backslash escapes the next character.
-/

namespace ResourceBundles.Properties

/-! ## Natural lines -/

inductive LineEnd where
  | lf
  | crlf
  | cr
deriving DecidableEq

def LineEnd.text : LineEnd → Text
  | lf => ['\n']
  | crlf => ['\r', '\n']
  | cr => ['\r']

/-- The text of some lines with their ends. -/
def joinLines (ls : List (Text × LineEnd)) : Text := ls.flatMap fun l => l.1 ++ l.2.text

/-- No carriage return stands in front of a line feed that ends an empty line. -/
def Separated (ls : List (Text × LineEnd)) : Prop :=
  ls.IsChain fun l m => ¬(l.2 = .cr ∧ m = ([], .lf))

def OneLine (t : Text) : Prop := '\r' ∉ t ∧ '\n' ∉ t

variable {t u : Text}

theorem OneLine.nil : OneLine [] := ⟨List.not_mem_nil, List.not_mem_nil⟩

theorem OneLine.append (ht : OneLine t) (hu : OneLine u) : OneLine (t ++ u) := by
  refine ⟨fun h => ?_, fun h => ?_⟩
  · rcases List.mem_append.mp h with h | h
    · exact ht.1 h
    · exact hu.1 h
  · rcases List.mem_append.mp h with h | h
    · exact ht.2 h
    · exact hu.2 h

theorem OneLine.of_append (h : OneLine (t ++ u)) : OneLine t ∧ OneLine u :=
  ⟨⟨fun hr => h.1 (List.mem_append_left u hr), fun hn => h.2 (List.mem_append_left u hn)⟩,
    ⟨fun hr => h.1 (List.mem_append_right t hr), fun hn => h.2 (List.mem_append_right t hn)⟩⟩

theorem OneLine.cons {c : Char} (hr : c ≠ '\r') (hn : c ≠ '\n') (ht : OneLine t) :
    OneLine (c :: t) :=
  ⟨fun h => (List.mem_cons.mp h).elim (hr ·.symm) ht.1,
    fun h => (List.mem_cons.mp h).elim (hn ·.symm) ht.2⟩

theorem naturalLines_cons {c : Char} (hr : c ≠ '\r') (hn : c ≠ '\n') (t : Text) :
    naturalLines (c :: t) = pushChar c (naturalLines t) := by
  rw [naturalLines.eq_def]
  split
  next h => simp at h
  next h => exact absurd (List.cons.inj h).1 hr
  next h => exact absurd (List.cons.inj h).1 hr
  next h => exact absurd (List.cons.inj h).1 hn
  next h =>
    obtain ⟨rfl, rfl⟩ := List.cons.inj h
    rfl

theorem naturalLines_lf (t : Text) : naturalLines ('\n' :: t) = [] :: naturalLines t := by
  rw [naturalLines]

theorem naturalLines_crlf (t : Text) : naturalLines ('\r' :: '\n' :: t) = [] :: naturalLines t := by
  rw [naturalLines]

theorem naturalLines_cr {t : Text} (h : t.head? ≠ some '\n') :
    naturalLines ('\r' :: t) = [] :: naturalLines t := by
  cases t with
  | nil => rfl
  | cons c t =>
      rw [naturalLines]
      intro u hu
      exact h (by rw [hu]; rfl)

theorem naturalLines_append_foldr {l : Text} (hl : OneLine l) (t : Text) :
    naturalLines (l ++ t) = l.foldr pushChar (naturalLines t) := by
  induction l with
  | nil => rfl
  | cons c l ih =>
      obtain ⟨hr, hn⟩ := hl
      rw [List.mem_cons, not_or] at hr hn
      rw [List.cons_append, naturalLines_cons (Ne.symm hr.1) (Ne.symm hn.1), ih ⟨hr.2, hn.2⟩,
        List.foldr_cons]

theorem foldr_pushChar_cons (l m : Text) (ls : List Text) :
    l.foldr pushChar (m :: ls) = (l ++ m) :: ls := by
  induction l with
  | nil => rfl
  | cons c l ih => rw [List.foldr_cons, ih, pushChar, List.cons_append]

theorem foldr_pushChar_nil {l : Text} (h : l ≠ []) : l.foldr pushChar [] = [l] := by
  induction l with
  | nil => exact absurd rfl h
  | cons c l ih =>
      by_cases hl : l = []
      · rw [hl]
        rfl
      · rw [List.foldr_cons, ih hl, pushChar]

/-- A line in front of a text that starts with a line end is the first line. -/
theorem naturalLines_append {l t : Text} {ls : List Text} (hl : OneLine l)
    (ht : naturalLines t = [] :: ls) : naturalLines (l ++ t) = l :: ls := by
  rw [naturalLines_append_foldr hl, ht, foldr_pushChar_cons, List.append_nil]

/-- A line end ends the line in front of it, if it is not a carriage return that a
line feed follows. -/
theorem naturalLines_stop {stop : LineEnd} {t : Text}
    (h : stop = .cr → t.head? ≠ some '\n') :
    naturalLines (stop.text ++ t) = [] :: naturalLines t := by
  cases stop with
  | lf => exact naturalLines_lf t
  | crlf => exact naturalLines_crlf t
  | cr => exact naturalLines_cr (h rfl)

/-- A text starts with a line feed only if its first line is empty and ends in one. -/
theorem head?_joinLines {l : Text × LineEnd} {ls : List (Text × LineEnd)} (hl : OneLine l.1)
    (h : (joinLines (l :: ls)).head? = some '\n') : l = ([], .lf) := by
  obtain ⟨t, stop⟩ := l
  cases t with
  | nil =>
      cases stop with
      | lf => rfl
      | crlf => exact absurd (Option.some.inj h) (by decide)
      | cr => exact absurd (Option.some.inj h) (by decide)
  | cons c t =>
      obtain rfl : c = '\n' := Option.some.inj h
      exact absurd List.mem_cons_self hl.2

theorem naturalLines_joinLines {ls : List (Text × LineEnd)} (hls : ∀ l ∈ ls, OneLine l.1)
    (hsep : Separated ls) : naturalLines (joinLines ls) = ls.map Prod.fst := by
  induction ls with
  | nil => rfl
  | cons l ls ih =>
      have hrest := ih (fun m hm => hls m (List.mem_cons_of_mem l hm)) hsep.tail
      have hstop : l.2 = .cr → (joinLines ls).head? ≠ some '\n' := by
        intro hcr hhead
        cases ls with
        | nil => simp [joinLines] at hhead
        | cons m ls =>
            have hm := head?_joinLines (hls m (by simp)) hhead
            exact (List.isChain_cons_cons.mp hsep).1 ⟨hcr, hm⟩
      have hjoin : joinLines (l :: ls) = l.1 ++ (l.2.text ++ joinLines ls) := by
        rw [joinLines, List.flatMap_cons, List.append_assoc]
        rfl
      rw [hjoin, naturalLines_append (hls l List.mem_cons_self) (naturalLines_stop hstop), hrest]
      rfl

theorem oneLine_of_mem_naturalLines {l : Text} (h : l ∈ naturalLines t) : OneLine l := by
  fun_induction naturalLines t generalizing l with
  | case1 => simp at h
  | case2 u ih | case3 u _ ih | case4 u ih =>
      rcases List.mem_cons.mp h with rfl | h
      · exact .nil
      · exact ih h
  | case5 c u _ hr hn ih =>
      have hr' : c ≠ '\r' := hr
      cases hu : naturalLines u with
      | nil =>
          rw [hu, pushChar, List.mem_singleton] at h
          exact h ▸ .cons hr' hn .nil
      | cons m ms =>
          rw [hu] at ih h
          rcases List.mem_cons.mp h with rfl | h
          · exact .cons hr' hn (ih List.mem_cons_self)
          · exact ih (List.mem_cons_of_mem m h)

/-! ## Natural lines within a text -/

/-- A text stands between two others as a natural line of the whole: it is one line, with the
start of the text or a line end in front of it, and a line end or the end of the text behind. -/
structure LineBetween (before l after : Text) : Prop where
  start : ∀ c, before.getLast? = some c → c = '\n' ∨ c = '\r'
  oneLine : OneLine l
  stop : ∀ c, after.head? = some c → c = '\n' ∨ c = '\r'

variable {before l after : Text}

theorem pushChar_append {c : Char} {ls ms : List Text} (h : ls ≠ []) :
    pushChar c (ls ++ ms) = pushChar c ls ++ ms := by
  cases ls with
  | nil => exact absurd rfl h
  | cons l ls => rfl

theorem naturalLines_ne_nil (h : t ≠ []) : naturalLines t ≠ [] := by
  fun_cases naturalLines t with
  | case1 => exact absurd rfl h
  | case2 => simp
  | case3 => simp
  | case4 => simp
  | case5 c t => cases naturalLines t <;> simp [pushChar]

theorem getLast?_cons_of_some {c d : Char} (h : t.getLast? = some d) :
    (c :: t).getLast? = some d := by
  rw [List.getLast?_cons, h, Option.getD_some]

/-- Behind a line end the natural lines of a text start anew. -/
theorem naturalLines_append_of_stop
    (h : ∀ c, before.getLast? = some c → c = '\n' ∨ c = '\r' ∧ t.head? ≠ some '\n') :
    naturalLines (before ++ t) = naturalLines before ++ naturalLines t := by
  have hrest : ∀ {c u} {P : Char → Prop}, (∀ d, (c :: u).getLast? = some d → P d) →
      ∀ d, u.getLast? = some d → P d := fun h d hd => h d (getLast?_cons_of_some hd)
  fun_induction naturalLines before with
  | case1 => rfl
  | case2 u ih =>
      rw [List.cons_append, List.cons_append, naturalLines_crlf, ih (hrest (hrest h)),
        List.cons_append]
  | case3 u hu ih =>
      have hhead : (u ++ t).head? ≠ some '\n' := by
        cases u with
        | nil => exact ((h '\r' rfl).resolve_left (by decide)).2
        | cons d u =>
            intro hd
            obtain rfl : d = '\n' := Option.some.inj hd
            exact hu u rfl
      rw [List.cons_append, naturalLines_cr hhead, ih (hrest h), List.cons_append]
  | case4 u ih => rw [List.cons_append, naturalLines_lf, ih (hrest h), List.cons_append]
  | case5 c u _ hr hn ih =>
      have hr' : c ≠ '\r' := hr
      have hne : u ≠ [] := by
        rintro rfl
        exact (h c rfl).elim hn fun hc => hr' hc.1
      rw [List.cons_append, naturalLines_cons hr' hn, ih (hrest h),
        pushChar_append (naturalLines_ne_nil hne)]

/-- A line in front of a line end or of the end of the text is its first natural line. -/
theorem naturalLines_line_append (hl : OneLine l) (hne : l ≠ [] ∨ after ≠ [])
    (hstop : ∀ c, after.head? = some c → c = '\n' ∨ c = '\r') :
    naturalLines (l ++ after) = l :: (naturalLines after).tail := by
  cases after with
  | nil =>
      have hne : l ≠ [] := hne.resolve_right fun h => h rfl
      rw [naturalLines_append_foldr hl, naturalLines, foldr_pushChar_nil hne, List.tail_nil]
  | cons c u =>
      refine naturalLines_append hl ?_
      rcases hstop c rfl with rfl | rfl
      · rw [naturalLines_lf, List.tail_cons]
      · cases u with
        | nil => rfl
        | cons d u =>
            by_cases hd : d = '\n'
            · rw [hd, naturalLines_crlf, List.tail_cons]
            · rw [naturalLines_cr (by simpa using hd), List.tail_cons]

theorem OneLine.head?_append_ne (h : OneLine l) (hne : l ≠ []) :
    (l ++ t).head? ≠ some '\n' := by
  cases l with
  | nil => exact absurd rfl hne
  | cons c l =>
      intro hc
      obtain rfl : c = '\n' := Option.some.inj hc
      exact h.2 List.mem_cons_self

namespace LineBetween

theorem naturalLines_before (h : LineBetween before l after) (ht : t.head? ≠ some '\n') :
    naturalLines (before ++ t) = naturalLines before ++ naturalLines t :=
  naturalLines_append_of_stop fun c hc => (h.start c hc).imp_right fun hc => ⟨hc, ht⟩

theorem naturalLines_eq (h : LineBetween before l after) (hne : l ≠ []) :
    naturalLines (before ++ (l ++ after)) =
      naturalLines before ++ l :: (naturalLines after).tail := by
  rw [h.naturalLines_before (h.oneLine.head?_append_ne hne),
    naturalLines_line_append h.oneLine (.inl hne) h.stop]

theorem cons {c : Char} (h : LineBetween before l after)
    (hc : before = [] → c = '\n' ∨ c = '\r') : LineBetween (c :: before) l after := by
  refine ⟨fun d hd => ?_, h.oneLine, h.stop⟩
  cases before with
  | nil => exact Option.some.inj hd ▸ hc rfl
  | cons e before => exact h.start d (List.getLast?_cons_cons ▸ hd)

end LineBetween

theorem exists_first_line {ls : List Text} (h : naturalLines t = l :: ls) :
    ∃ after, t = l ++ after ∧ LineBetween [] l after := by
  have hstart : ∀ c, ([] : Text).getLast? = some c → c = '\n' ∨ c = '\r' := by simp
  fun_induction naturalLines t generalizing l ls with
  | case1 => simp at h
  | case2 | case3 | case4 =>
      obtain ⟨rfl, -⟩ := List.cons.inj h
      exact ⟨_, rfl, hstart, .nil, by simp⟩
  | case5 c u _ hr hn ih =>
      have hr' : c ≠ '\r' := hr
      cases hu : naturalLines u with
      | nil =>
          rw [hu] at h
          obtain ⟨rfl, -⟩ := List.cons.inj h
          obtain rfl : u = [] := Decidable.byContradiction fun hne => naturalLines_ne_nil hne hu
          exact ⟨[], rfl, hstart, .cons hr' hn .nil, by simp⟩
      | cons m ms =>
          rw [hu] at h
          obtain ⟨rfl, -⟩ := List.cons.inj h
          obtain ⟨after, rfl, -, hm, hstop⟩ := ih hu
          exact ⟨after, rfl, hstart, .cons hr' hn hm, hstop⟩

/-- Every natural line that is not empty stands in the text between the lines in front of it
and those behind it. -/
theorem exists_lineBetween {n : Nat} (h : (naturalLines t)[n]? = some l) (hne : l ≠ []) :
    ∃ before after, t = before ++ (l ++ after) ∧ LineBetween before l after ∧
      (naturalLines before).length = n := by
  fun_induction naturalLines t generalizing n with
  | case1 => simp at h
  | case2 u ih =>
      cases n with
      | zero => exact absurd (Option.some.inj h).symm hne
      | succ n =>
          obtain ⟨before, after, rfl, hbetween, hlength⟩ := ih h
          have hstart := (hbetween.cons fun _ => .inl rfl).cons fun _ => .inr rfl
          refine ⟨'\r' :: '\n' :: before, after, rfl, hstart, ?_⟩
          rw [naturalLines_crlf, List.length_cons, hlength]
  | case3 u hu ih =>
      cases n with
      | zero => exact absurd (Option.some.inj h).symm hne
      | succ n =>
          obtain ⟨before, after, rfl, hbetween, hlength⟩ := ih h
          have hhead : before.head? ≠ some '\n' := by
            intro hd
            obtain ⟨w, rfl⟩ := List.head?_eq_some_iff.mp hd
            exact hu _ rfl
          refine ⟨'\r' :: before, after, rfl, hbetween.cons fun _ => .inr rfl, ?_⟩
          rw [naturalLines_cr hhead, List.length_cons, hlength]
  | case4 u ih =>
      cases n with
      | zero => exact absurd (Option.some.inj h).symm hne
      | succ n =>
          obtain ⟨before, after, rfl, hbetween, hlength⟩ := ih h
          refine ⟨'\n' :: before, after, rfl, hbetween.cons fun _ => .inl rfl, ?_⟩
          rw [naturalLines_lf, List.length_cons, hlength]
  | case5 c u _ hr hn ih =>
      have hr' : c ≠ '\r' := hr
      cases n with
      | zero =>
          rw [← naturalLines_cons hr' hn, ← List.head?_eq_getElem?] at h
          obtain ⟨ls, hls⟩ := List.head?_eq_some_iff.mp h
          obtain ⟨after, hu, hbetween⟩ := exists_first_line hls
          exact ⟨[], after, hu, hbetween, rfl⟩
      | succ n =>
          have hpush : ∀ ls : List Text, (pushChar c ls)[n + 1]? = ls[n + 1]? := by
            intro ls
            cases ls <;> rfl
          obtain ⟨before, after, rfl, hbetween, hlength⟩ := ih (hpush _ ▸ h)
          refine ⟨c :: before, after, rfl, hbetween.cons fun hnil => ?_, ?_⟩
          · rw [hnil] at hlength
            exact absurd hlength (Nat.succ_ne_zero n).symm
          · rw [naturalLines_cons hr' hn, ← hlength]
            cases hb : naturalLines before with
            | nil => simp [hb] at hlength
            | cons m ms => rfl

/-! ## Continuations -/

def trailingBackslashes (t : Text) : Nat := (t.rtakeWhile (· == '\\')).length

theorem isContinued_iff : isContinued t = true ↔ Odd (trailingBackslashes t) := by
  simp [isContinued, trailingBackslashes, List.rtakeWhile, Nat.odd_iff]

theorem isContinued_eq_false_iff : isContinued t = false ↔ Even (trailingBackslashes t) := by
  rw [← Nat.not_odd_iff_even, ← isContinued_iff, Bool.not_eq_true]

/-- Whether a backslash escapes the next character, told for the one behind it. -/
def escapes (escaped : Bool) (c : Char) : Bool := c == '\\' && !escaped

theorem escapes_of_ne {c : Char} (h : c ≠ '\\') (escaped : Bool) : escapes escaped c = false := by
  simp [escapes, h]

theorem isContinued_concat (t : Text) (c : Char) :
    isContinued (t ++ [c]) = escapes (isContinued t) c := by
  unfold isContinued escapes
  rw [List.reverse_concat]
  by_cases hc : c = '\\'
  · rw [List.takeWhile_cons_of_pos (by simp [hc]), List.length_cons]
    have hparity : ∀ n : Nat, ((n + 1) % 2 == 1) = !(n % 2 == 1) := by
      intro n
      rcases Nat.mod_two_eq_zero_or_one n with h | h <;> simp [Nat.add_mod, h]
    rw [hparity]
    simp [hc]
  · rw [List.takeWhile_cons_of_neg (by simp [hc])]
    simp [hc]

theorem isContinued_append (s t : Text) :
    isContinued (s ++ t) = t.foldl escapes (isContinued s) := by
  induction t generalizing s with
  | nil => rw [List.append_nil, List.foldl_nil]
  | cons c t ih =>
      have hsplit : s ++ c :: t = (s ++ [c]) ++ t := by simp
      rw [hsplit, ih, isContinued_concat, List.foldl_cons]

theorem isContinued_eq_foldl (t : Text) : isContinued t = t.foldl escapes false :=
  isContinued_append [] t

theorem isContinued_append_of_even (h : isContinued t = false) (u : Text) :
    isContinued (t ++ u) = isContinued u := by
  rw [isContinued_append, h, ← isContinued_eq_foldl]

theorem isContinued_dropLast (h : isContinued t = true) : isContinued t.dropLast = false := by
  induction t using List.reverseRecOn with
  | nil => rfl
  | append_singleton t c _ =>
      rw [isContinued_concat, escapes] at h
      rw [List.dropLast_concat]
      simpa using (Bool.and_eq_true_iff.mp h).2

end ResourceBundles.Properties
