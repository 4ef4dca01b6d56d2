import ResourceBundles.Proofs.Bundle
import ResourceBundles.Proofs.Properties.Joining

/-!
# Numbers of lines

Line numbers are carried along and never looked at.  Natural lines that stand elsewhere give the
same logical lines with other numbers, and logical lines with other numbers give the same entries
or the same error, with the numbers they have now.
-/

namespace ResourceBundles

def Properties.LogicalLine.renumber (f : Nat → Nat) (line : LogicalLine) : LogicalLine :=
  { line with number := f line.number }

def Properties.EntryError.renumber (f : Nat → Nat) (e : EntryError) : EntryError :=
  { e with line := f e.line }

def Entry.renumber (f : Nat → Nat) (e : Entry) : Entry := { e with line := f e.line }

def Bundle.renumber (f : Nat → Nat) (b : Bundle) : Bundle :=
  { b with entries := b.entries.map (Entry.renumber f) }

variable {f : Nat → Nat}

/-! ## Logical lines -/

namespace Properties

theorem readLine_renumber (number : Nat) (open? : Option LogicalLine) (natural : Text) :
    readLine (f number) (open?.map (LogicalLine.renumber f)) natural =
      ((readLine number open? natural).1.map (LogicalLine.renumber f),
        (readLine number open? natural).2.map (LogicalLine.renumber f)) := by
  have hextend : LogicalLine.extend? (f number) (open?.map (LogicalLine.renumber f)) natural =
      (LogicalLine.extend? number open? natural).map (LogicalLine.renumber f) := by
    cases open? with
    | some line => rfl
    | none =>
        simp only [LogicalLine.extend?, Option.map_none]
        split <;> rfl
  rw [readLine, readLine, hextend]
  cases LogicalLine.extend? number open? natural with
  | none => rfl
  | some line =>
      simp only [Option.map_some, LogicalLine.renumber]
      split <;> rfl

/-- Natural lines that keep following each other are joined as before. -/
theorem logicalLinesFrom_renumber {number : Nat} (hf : ∀ n, number ≤ n → f (n + 1) = f n + 1)
    (open? : Option LogicalLine) (ls : List Text) :
    logicalLinesFrom (f number) (open?.map (LogicalLine.renumber f)) ls =
      (logicalLinesFrom number open? ls).map (LogicalLine.renumber f) := by
  induction ls generalizing number open? with
  | nil => cases open? <;> rfl
  | cons natural ls ih =>
      have hrest : ∀ n, number + 1 ≤ n → f (n + 1) = f n + 1 :=
        fun n hn => hf n (Nat.le_of_succ_le hn)
      rw [logicalLinesFrom_cons, logicalLinesFrom_cons, readLine_renumber,
        ← hf number (Nat.le_refl number), ih hrest, List.map_append]

/-! ## Entries -/

theorem readEntry_renumber (line : LogicalLine) :
    readEntry (line.renumber f) =
      match readEntry line with
      | .error e => .error (e.renumber f)
      | .ok e => .ok (e.renumber f) := by
  simp only [readEntry, readSide, LogicalLine.renumber]
  cases unescape (splitEntry line.text).1 with
  | error found => rfl
  | ok key => cases unescape (splitEntry line.text).2 <;> rfl

theorem readEntries_renumber (lines : List LogicalLine) :
    readEntries (lines.map (LogicalLine.renumber f)) =
      match readEntries lines with
      | .error e => .error (e.renumber f)
      | .ok es => .ok (es.map (Entry.renumber f)) := by
  induction lines with
  | nil => rfl
  | cons line lines ih =>
      rw [List.map_cons, readEntries, readEntries, readEntry_renumber, ih]
      cases readEntry line with
      | error e => rfl
      | ok e => cases readEntries lines <;> rfl

end Properties

namespace Bundle

theorem insert_renumber (b : Bundle) (e : Entry) :
    (b.renumber f).insert (e.renumber f) = (b.insert e).renumber f := by
  have hpos : (b.renumber f).position? (e.renumber f).key = b.position? e.key := rfl
  rw [insert, insert, hpos]
  cases b.position? e.key with
  | none => simp [renumber, Entry.renumber]
  | some i =>
      simp only [renumber, Bundle.mk.injEq, and_true]
      refine List.ext_getElem? fun j => ?_
      rw [List.getElem?_modify, List.getElem?_map, List.getElem?_map, List.getElem?_modify]
      cases b.entries[j]? with
      | none => rfl
      | some old => by_cases hij : i = j <;> simp [hij, Entry.renumber]

theorem ofEntries_renumber (es : List Entry) :
    ofEntries (es.map (Entry.renumber f)) = (ofEntries es).renumber f := by
  induction es using List.reverseRecOn with
  | nil => rfl
  | append_singleton es e ih =>
      rw [List.map_append, List.map_singleton, ofEntries_concat, ih, insert_renumber,
        ofEntries_concat]

end Bundle
end ResourceBundles
