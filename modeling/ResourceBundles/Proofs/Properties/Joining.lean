import ResourceBundles.Proofs.Properties.Layout

/-!
# Natural lines in a logical line

Natural lines are read one by one.  Each of them completes a logical line, leaves one open or
holds no entry, and which of these it does depends on the text of this one line only: what was
read before ends in an even number of backslashes.
-/

namespace ResourceBundles.Properties

variable {number : Nat} {open? : Option LogicalLine} {line : LogicalLine}

/-- What a natural line completes, and what it leaves open. -/
def readLine (number : Nat) (open? : Option LogicalLine) (natural : Text) :
    List LogicalLine × Option LogicalLine :=
  match LogicalLine.extend? number open? natural with
  | none => ([], none)
  | some line =>
    if isContinued line.text then ([], some { line with text := line.text.dropLast })
    else ([line], none)

theorem logicalLinesFrom_cons (number : Nat) (open? : Option LogicalLine) (natural : Text)
    (rest : List Text) :
    logicalLinesFrom number open? (natural :: rest) =
      (readLine number open? natural).1 ++
        logicalLinesFrom (number + 1) (readLine number open? natural).2 rest := by
  rw [logicalLinesFrom, readLine]
  cases LogicalLine.extend? number open? natural with
  | none => rfl
  | some line =>
      simp only
      split <;> rfl

/-- An open line has started before the next natural line, and its text ends in an even number
of backslashes. -/
def Pending (number : Nat) (open? : Option LogicalLine) : Prop :=
  ∀ line ∈ open?, line.number < number ∧ isContinued line.text = false

/-- Whether a logical line is open behind a natural line, told from the natural line alone and
whether one was open before. -/
def staysOpen (isOpen : Bool) (natural : Text) : Bool :=
  isContinued natural && (isOpen || !isSkipped (dropBlanks natural))

theorem isContinued_dropBlanks (t : Text) : isContinued (dropBlanks t) = isContinued t := by
  induction t with
  | nil => rfl
  | cons c t ih =>
      rw [dropBlanks, List.dropWhile_cons]
      split
      next hc =>
        rw [isContinued_eq_foldl (c :: t), List.foldl_cons,
          escapes_of_ne (ne_backslash_of_isBlank hc), ← isContinued_eq_foldl]
        exact ih
      · rfl

/-- The parity that accumulated text has is the one that the last natural line has by itself. -/
theorem isContinued_append_dropBlanks {text : Text} (heven : isContinued text = false)
    (natural : Text) : isContinued (text ++ dropBlanks natural) = isContinued natural := by
  rw [isContinued_append_of_even heven, isContinued_dropBlanks]

theorem of_extend? (h : Pending number open?) {natural : Text}
    (hline : LogicalLine.extend? number open? natural = some line) :
    line.number ≤ number ∧ isContinued line.text = isContinued natural := by
  cases open? with
  | some line' =>
      obtain ⟨hnumber, heven⟩ := h line' rfl
      obtain rfl := Option.some.inj hline
      exact ⟨Nat.le_of_lt hnumber, isContinued_append_dropBlanks heven natural⟩
  | none =>
      simp only [LogicalLine.extend?] at hline
      split at hline
      · exact absurd hline.symm (Option.some_ne_none line)
      · obtain rfl := Option.some.inj hline
        exact ⟨Nat.le_refl number, isContinued_dropBlanks natural⟩

theorem isSome_extend? (number : Nat) (open? : Option LogicalLine) (natural : Text) :
    (LogicalLine.extend? number open? natural).isSome =
      (open?.isSome || !isSkipped (dropBlanks natural)) := by
  cases open? with
  | some line => rfl
  | none => cases hskip : isSkipped (dropBlanks natural) <;> simp [LogicalLine.extend?, hskip]

/-- One natural line keeps what is open pending, and completes no line that starts later. -/
theorem readLine_spec (h : Pending number open?) (natural : Text) :
    Pending (number + 1) (readLine number open? natural).2 ∧
      (readLine number open? natural).2.isSome = staysOpen open?.isSome natural ∧
      ∀ line ∈ (readLine number open? natural).1, line.number ≤ number := by
  rw [staysOpen, ← isSome_extend? number, readLine]
  cases hextend : LogicalLine.extend? number open? natural with
  | none => simp [Pending]
  | some line =>
      obtain ⟨hnumber, hcontinued⟩ := of_extend? h hextend
      rw [← hcontinued]
      cases hline : isContinued line.text with
      | true =>
          simpa [hline, Pending, Nat.lt_succ_iff, hnumber] using isContinued_dropLast hline
      | false => simpa [hline, Pending] using hnumber

/-- By induction over the natural lines, reading some of them leaves a pending line at most. -/
theorem exists_logicalLinesFrom_append (ls : List Text) (h : Pending number open?) :
    ∃ done open'?, Pending (number + ls.length) open'? ∧
      open'?.isSome = ls.foldl staysOpen open?.isSome ∧
      (∀ line ∈ done, line.number < number + ls.length) ∧
      ∀ ms, logicalLinesFrom number open? (ls ++ ms) =
        done ++ logicalLinesFrom (number + ls.length) open'? ms := by
  induction ls generalizing number open? with
  | nil => exact ⟨[], open?, h, rfl, by simp, fun ms => rfl⟩
  | cons natural ls ih =>
      obtain ⟨hpending, hisSome, hdone⟩ := readLine_spec h natural
      obtain ⟨done, open'?, hpending', hisSome', hdone', hlines⟩ := ih hpending
      have hnumber : number + 1 + ls.length = number + (natural :: ls).length := by
        rw [List.length_cons]
        omega
      rw [hnumber] at hpending' hdone' hlines
      refine ⟨(readLine number open? natural).1 ++ done, open'?, hpending', ?_, ?_, ?_⟩
      · rw [hisSome', hisSome, List.foldl_cons]
      · intro line hline
        rcases List.mem_append.mp hline with hline | hline
        · have hle := hdone line hline
          rw [List.length_cons]
          omega
        · exact hdone' line hline
      · intro ms
        rw [List.cons_append, logicalLinesFrom_cons, hlines, List.append_assoc]

end ResourceBundles.Properties
