import ResourceBundles.Proofs.Properties.Numbering

/-!
# Texts put together

A text that ends in a line feed and leaves no logical line open is read for itself: the text
behind it starts anew.  The bundle of both is the first one with the definitions of the second,
whose lines count on.
-/

namespace ResourceBundles.Properties

/-- Whether the last natural line of a text asks for one more. -/
def leavesOpen (t : Text) : Bool := (naturalLines t).foldl staysOpen false

variable {before : Text}

theorem logicalLines_append (hend : before = [] ∨ before.getLast? = some '\n')
    (hclosed : leavesOpen before = false) (after : Text) :
    logicalLines (before ++ after) = logicalLines before ++
      (logicalLines after).map (LogicalLine.renumber (· + (naturalLines before).length)) := by
  have hnatural : naturalLines (before ++ after) = naturalLines before ++ naturalLines after := by
    apply naturalLines_append_of_stop
    intro c hc
    rcases hend with rfl | hend
    · simp at hc
    · exact .inl (Option.some.inj (hc.symm.trans hend))
  have hstart : Pending 1 none := by simp [Pending]
  obtain ⟨done, open?, -, hopen, -, hlines⟩ :=
    exists_logicalLinesFrom_append (naturalLines before) hstart
  obtain rfl : open? = none :=
    Option.isNone_iff_eq_none.mp (Option.isSome_eq_false_iff.mp (hopen.trans hclosed))
  have hdone : logicalLines before = done := by
    simpa [logicalLines, logicalLinesFrom] using hlines []
  have hsucc : ∀ n, 1 ≤ n →
      n + 1 + (naturalLines before).length = n + (naturalLines before).length + 1 :=
    fun n _ => Nat.add_right_comm n 1 _
  rw [hdone, logicalLines, hnatural, hlines, logicalLines,
    ← logicalLinesFrom_renumber hsucc none (naturalLines after), Option.map_none]

theorem readEntries_append (ls ms : List LogicalLine) :
    readEntries (ls ++ ms) =
      match readEntries ls with
      | .error e => .error e
      | .ok es => (readEntries ms).map (es ++ ·) := by
  induction ls with
  | nil =>
      rw [List.nil_append]
      cases readEntries ms <;> rfl
  | cons l ls ih =>
      rw [List.cons_append, readEntries, readEntries, ih]
      cases readEntry l with
      | error e => rfl
      | ok entry =>
          cases readEntries ls with
          | error e => rfl
          | ok es => cases readEntries ms <;> rfl

/-- Reading goes on behind a text that ends in a line feed and leaves nothing open: an error in
front comes first, and the lines behind are counted from the end of the text in front. -/
theorem parse_append (hend : before = [] ∨ before.getLast? = some '\n')
    (hclosed : leavesOpen before = false) (after : Text) :
    parse (before ++ after) =
      match parse before with
      | .error e => .error e
      | .ok b =>
        match parse after with
        | .error e => .error (e.renumber (· + (naturalLines before).length))
        | .ok c =>
          .ok ((c.renumber (· + (naturalLines before).length)).entries.foldl Bundle.insert b) := by
  rw [parse, parse, parse, logicalLines_append hend hclosed, readEntries_append,
    readEntries_renumber]
  cases readEntries (logicalLines before) with
  | error e => rfl
  | ok es =>
      cases readEntries (logicalLines after) with
      | error e => rfl
      | ok fs =>
          have hentries := Bundle.foldl_insert_entries es
            (fs.map (Entry.renumber (· + (naturalLines before).length)))
          rw [Bundle.ofEntries_renumber] at hentries
          exact congrArg Except.ok hentries.symm

/-- A comment that ends in a backslash stands at the end, and a key is defined again behind it. -/
theorem parse_append_comment :
    (("a=1\\\n\nb=2\n# \\\n" : Text) = [] ∨
        ("a=1\\\n\nb=2\n# \\\n" : Text).getLast? = some '\n') ∧
      leavesOpen "a=1\\\n\nb=2\n# \\\n" = false ∧
      parse ("a=1\\\n\nb=2\n# \\\n" ++ "b=3\rc=\r\nb=4\\") =
        .ok ⟨[⟨"a", "1", 1⟩, ⟨"b", "4", 7⟩, ⟨"c", [], 6⟩], [("a", 0), ("b", 1), ("c", 2)]⟩ := by
  have hend : ("a=1\\\n\nb=2\n# \\\n" : Text) = [] ∨
      ("a=1\\\n\nb=2\n# \\\n" : Text).getLast? = some '\n' := .inr (by decide)
  have hclosed : leavesOpen "a=1\\\n\nb=2\n# \\\n" = false := by decide +kernel
  exact ⟨hend, hclosed, (parse_append hend hclosed _).trans rfl⟩

end ResourceBundles.Properties
