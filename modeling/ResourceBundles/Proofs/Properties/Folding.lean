import ResourceBundles.Proofs.Properties.Numbering
import Mathlib.Data.List.TakeWhile

/-!
# Folded lines

A natural line can be folded: a backslash and a line end go between two parts of it, and any
blanks in front of the second part.  The text then defines the same keys with the same values,
and only the lines behind the fold have other numbers.  This holds wherever the fold stands,
because whether a natural line goes on is told from its own end.
-/

namespace ResourceBundles

/-- The number of a natural line once another one has been put behind line `k`. -/
def Properties.moved (k n : Nat) : Nat := if n ≤ k then n else n + 1

def Properties.LogicalLine.moved (k : Nat) (line : LogicalLine) : LogicalLine :=
  { line with number := Properties.moved k line.number }

def Properties.EntryError.moved (k : Nat) (e : EntryError) : EntryError :=
  { e with line := Properties.moved k e.line }

def Entry.moved (k : Nat) (e : Entry) : Entry := { e with line := Properties.moved k e.line }

/-- The same entries in the same order, with the numbers that their lines have once another
line has been put behind line `k`. -/
def Bundle.moved (k : Nat) (b : Bundle) : Bundle :=
  { b with entries := b.entries.map (Entry.moved k) }

namespace Properties

variable {before after a b blanks t : Text} {number k : Nat} {open? : Option LogicalLine}
  {line : LogicalLine} {stop : LineEnd}

/-- An empty natural line at the end changes nothing. -/
theorem logicalLinesFrom_empty_end (h : Pending number open?) :
    logicalLinesFrom number open? [[]] = logicalLinesFrom number open? [] := by
  cases open? with
  | none => rfl
  | some line =>
      have heven := (h line rfl).2
      simp [logicalLinesFrom, LogicalLine.extend?, dropBlanks, heven]

/-! ## Lines behind a fold -/

theorem LogicalLine.moved_of_le (h : line.number ≤ k) : line.moved k = line := by
  rw [LogicalLine.moved, Properties.moved, if_pos h]

theorem map_moved_of_le {lines : List LogicalLine} (h : ∀ line ∈ lines, line.number ≤ k) :
    lines.map (LogicalLine.moved k) = lines :=
  (List.map_congr_left fun line hl => LogicalLine.moved_of_le (h line hl)).trans (List.map_id _)

theorem Pending.map_moved (h : Pending (k + 1) open?) :
    open?.map (LogicalLine.moved k) = open? := by
  cases open? with
  | none => rfl
  | some line =>
      have hlt := (h line rfl).1
      rw [Option.map_some, LogicalLine.moved_of_le (Nat.le_of_lt_succ hlt)]

/-- Lines that start behind a fold are read as before, with numbers that are one higher. -/
theorem logicalLinesFrom_succ (hk : k < number) (open? : Option LogicalLine) (ls : List Text) :
    logicalLinesFrom (number + 1) (open?.map (LogicalLine.moved k)) ls =
      (logicalLinesFrom number open? ls).map (LogicalLine.moved k) := by
  have hmoved : ∀ n, number ≤ n → Properties.moved k n = n + 1 :=
    fun n hn => if_neg (Nat.not_le.mpr (Nat.lt_of_lt_of_le hk hn))
  have hsucc : ∀ n, number ≤ n → Properties.moved k (n + 1) = Properties.moved k n + 1 :=
    fun n hn => by rw [hmoved n hn, hmoved (n + 1) (Nat.le_succ_of_le hn)]
  have h := logicalLinesFrom_renumber hsucc open? ls
  rw [hmoved number (Nat.le_refl number)] at h
  exact h

/-! ## The fold of a line -/

/-- A natural line behind others is skipped if it continues no line and holds no entry. -/
def IsSkippedBehind (ls : List Text) (natural : Text) : Prop :=
  ls.foldl staysOpen false = false ∧ isSkipped (dropBlanks natural) = true

/-- Where a natural line can be folded: it is read, the part in front has something to hold and
no backslash that would take the new one for itself, and the part behind starts with no blank. -/
structure Foldable (before a b after : Text) : Prop where
  line : LineBetween before (a ++ b) after
  not_skipped : ¬IsSkippedBehind (naturalLines before) (a ++ b)
  not_blank : ∃ c ∈ a, isBlank c = false
  even : isContinued a = false
  behind : ∀ c, b.head? = some c → isBlank c = false

theorem dropBlanks_append_of_not_blank (ha : ∃ c ∈ a, isBlank c = false) (u : Text) :
    dropBlanks (a ++ u) = dropBlanks a ++ u ∧ dropBlanks a ≠ [] := by
  have hne : dropBlanks a ≠ [] := by
    obtain ⟨c, hc, hblank⟩ := ha
    intro hnil
    have hall := List.dropWhile_eq_nil_iff.mp hnil c hc
    rw [hblank] at hall
    exact Bool.noConfusion hall
  refine ⟨?_, hne⟩
  rw [dropBlanks, List.dropWhile_append, ← dropBlanks, if_neg (by simpa using hne)]

theorem isSkipped_append (h : t ≠ []) (u : Text) : isSkipped (t ++ u) = isSkipped t := by
  cases t with
  | nil => exact absurd rfl h
  | cons c t => rfl

namespace Foldable

variable (h : Foldable before a b after)

include h

theorem ne_nil : a ≠ [] := by
  obtain ⟨c, hc, -⟩ := h.not_blank
  exact List.ne_nil_of_mem hc

theorem dropBlanks_append (u : Text) : dropBlanks (a ++ u) = dropBlanks a ++ u :=
  (dropBlanks_append_of_not_blank h.not_blank u).1

/-- The part in front of a fold belongs to a logical line, whatever follows it. -/
theorem exists_extend? (hpending : Pending number open?)
    (hopen : open?.isSome = (naturalLines before).foldl staysOpen false) :
    ∃ line : LogicalLine, isContinued line.text = false ∧ ∀ u,
      LogicalLine.extend? number open? (a ++ u) = some { line with text := line.text ++ u } := by
  have heven : isContinued (dropBlanks a) = false := (isContinued_dropBlanks a).trans h.even
  cases open? with
  | some line =>
      refine ⟨{ line with text := line.text ++ dropBlanks a }, ?_, fun u => ?_⟩
      · exact (isContinued_append_of_even (hpending line rfl).2 _).trans heven
      · rw [LogicalLine.extend?, h.dropBlanks_append, List.append_assoc]
  | none =>
      have hne := (dropBlanks_append_of_not_blank h.not_blank []).2
      have hskip : isSkipped (dropBlanks a) = false := by
        rw [← isSkipped_append hne b, ← h.dropBlanks_append]
        exact Bool.eq_false_iff.mpr fun hskip => h.not_skipped ⟨hopen.symm, hskip⟩
      refine ⟨⟨number, dropBlanks a⟩, heven, fun u => ?_⟩
      simp [LogicalLine.extend?, h.dropBlanks_append, isSkipped_append hne, hskip]

/-- Both halves of a folded line are read as the whole line. -/
theorem logicalLinesFrom_fold (hpending : Pending number open?)
    (hopen : open?.isSome = (naturalLines before).foldl staysOpen false)
    (hblanks : AllBlank blanks) (rest : List Text) :
    logicalLinesFrom number open? ((a ++ ['\\']) :: (blanks ++ b) :: rest) =
      (logicalLinesFrom number open? ((a ++ b) :: rest)).map (LogicalLine.moved number) := by
  obtain ⟨line, hline, hextend⟩ := h.exists_extend? hpending hopen
  have hfirst : readLine number open? (a ++ ['\\']) = ([], some line) := by
    have hodd : isContinued (line.text ++ ['\\']) = true := by
      rw [isContinued_concat, hline]
      rfl
    simp [readLine, hextend, hodd]
  have hsecond : readLine (number + 1) (some line) (blanks ++ b) =
      readLine number open? (a ++ b) := by
    rw [readLine, readLine, hextend, LogicalLine.extend?, Properties.dropBlanks_append hblanks,
      dropBlanks_of_head h.behind]
  obtain ⟨hrest, -, hdone⟩ := readLine_spec hpending (a ++ b)
  rw [logicalLinesFrom_cons, hfirst, List.nil_append, logicalLinesFrom_cons, hsecond,
    logicalLinesFrom_cons number, List.map_append, map_moved_of_le hdone,
    ← logicalLinesFrom_succ (Nat.lt_succ_self number), hrest.map_moved]

/-- Nothing is left of an empty second half at the end of the text, which makes no difference. -/
theorem logicalLinesFrom_second (hpending : Pending number open?) (hblanks : AllBlank blanks)
    (first : Text) :
    logicalLinesFrom number open? (first :: naturalLines (blanks ++ (b ++ after))) =
      logicalLinesFrom number open? (first :: (blanks ++ b) :: (naturalLines after).tail) := by
  have hone : OneLine (blanks ++ b) :=
    (oneLine_of_allBlank hblanks).append h.line.oneLine.of_append.2
  rw [← List.append_assoc]
  by_cases hne : blanks ++ b ≠ [] ∨ after ≠ []
  · rw [naturalLines_line_append hone hne h.line.stop]
  · obtain ⟨hnil, hafter⟩ := not_or.mp hne
    rw [not_not.mp hnil, not_not.mp hafter, logicalLinesFrom_cons, logicalLinesFrom_cons number]
    exact congrArg _ (logicalLinesFrom_empty_end (readLine_spec hpending first).1).symm

/-- A folded text has the same logical lines. -/
theorem logicalLines_eq (hblanks : AllBlank blanks)
    (hstop : stop = .cr → (blanks ++ (b ++ after)).head? ≠ some '\n') :
    logicalLines (before ++ (a ++ '\\' :: (stop.text ++ (blanks ++ (b ++ after))))) =
      (logicalLines (before ++ ((a ++ b) ++ after))).map
        (LogicalLine.moved (1 + (naturalLines before).length)) := by
  have hwhole : naturalLines (before ++ ((a ++ b) ++ after)) =
      naturalLines before ++ (a ++ b) :: (naturalLines after).tail :=
    h.line.naturalLines_eq (List.append_ne_nil_of_left_ne_nil h.ne_nil b)
  have ha : OneLine a := h.line.oneLine.of_append.1
  have hfirst : naturalLines (a ++ '\\' :: (stop.text ++ (blanks ++ (b ++ after)))) =
      (a ++ ['\\']) :: naturalLines (blanks ++ (b ++ after)) := by
    have hone : OneLine (a ++ ['\\']) := ha.append ⟨by decide, by decide⟩
    have happend := naturalLines_append hone (naturalLines_stop hstop)
    rwa [List.append_assoc, List.singleton_append] at happend
  have hfolded : naturalLines (before ++ (a ++ '\\' :: (stop.text ++ (blanks ++ (b ++ after))))) =
      naturalLines before ++ (a ++ ['\\']) :: naturalLines (blanks ++ (b ++ after)) := by
    rw [h.line.naturalLines_before (ha.head?_append_ne h.ne_nil), hfirst]
  have hstart : Pending 1 none := by simp [Pending]
  obtain ⟨done, open?, hpending, hopen, hdone, hlines⟩ :=
    exists_logicalLinesFrom_append (naturalLines before) hstart
  rw [logicalLines, logicalLines, hwhole, hfolded, hlines, hlines, List.map_append,
    map_moved_of_le fun line hl => Nat.le_of_lt (hdone line hl),
    h.logicalLinesFrom_second hpending hblanks, h.logicalLinesFrom_fold hpending hopen hblanks]

end Foldable
end Properties

/-! ## Entries of a folded text -/

namespace Bundle

@[simp] theorem pairs_moved (k : Nat) (b : Bundle) : (b.moved k).pairs = b.pairs := by
  rw [pairs, moved, List.map_map]
  rfl

theorem ofEntries_moved (k : Nat) (es : List Entry) :
    ofEntries (es.map (Entry.moved k)) = (ofEntries es).moved k :=
  ofEntries_renumber es

end Bundle

namespace Properties

theorem readEntries_moved (k : Nat) (lines : List LogicalLine) :
    readEntries (lines.map (LogicalLine.moved k)) =
      match readEntries lines with
      | .error e => .error (e.moved k)
      | .ok es => .ok (es.map (Entry.moved k)) :=
  readEntries_renumber lines

/-- Folding a line that is read changes neither keys nor values nor whether the text can be
read.  Entries and errors behind the fold have line numbers that are one higher. -/
theorem parse_fold {before a b after blanks : Text} {stop : LineEnd}
    (h : Foldable before a b after) (hblanks : AllBlank blanks)
    (hstop : stop = .cr → (blanks ++ (b ++ after)).head? ≠ some '\n') :
    parse (before ++ (a ++ '\\' :: (stop.text ++ (blanks ++ (b ++ after))))) =
      match parse (before ++ ((a ++ b) ++ after)) with
      | .error e => .error (e.moved (1 + (naturalLines before).length))
      | .ok bundle => .ok (bundle.moved (1 + (naturalLines before).length)) := by
  rw [parse, parse, h.logicalLines_eq hblanks hstop, readEntries_moved]
  cases readEntries (logicalLines (before ++ ((a ++ b) ++ after))) with
  | error e => rfl
  | ok es => exact congrArg Except.ok (Bundle.ofEntries_moved _ es)

/-- A fold inside a unit escape, in a line that goes on another one and looks like a comment. -/
theorem parse_fold_inEscape :
    Foldable "x=1\nk=\\\n" "#\\u00" "41" "\ny=2" ∧ AllBlank "\t " ∧
      parse "x=1\nk=\\\n#\\u00\\\r\t 41\ny=2" =
        .ok ⟨[⟨"x", "1", 1⟩, ⟨"k", "#A", 2⟩, ⟨"y", "2", 5⟩], [("x", 0), ("k", 1), ("y", 2)]⟩ := by
  have hfoldable : Foldable "x=1\nk=\\\n" "#\\u00" "41" "\ny=2" := {
    line := ⟨by simp, ⟨by decide, by decide⟩, by simp⟩
    not_skipped := fun h => absurd h.1 (by decide +kernel)
    not_blank := ⟨'#', by decide, by decide⟩
    even := by decide
    behind := by simp [isBlank] }
  have hblanks : AllBlank "\t " := by simp [AllBlank, isBlank]
  have hfold := @parse_fold _ _ _ _ _ .cr hfoldable hblanks (by simp)
  exact ⟨hfoldable, hblanks, hfold.trans rfl⟩

end Properties
end ResourceBundles
