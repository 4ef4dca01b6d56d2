import ResourceBundles.Issue

/-!
# Reports of issues

A report shows every issue in a block of its own: the severity, the headline and the
rule; the place; what there is to add; and an empty line.  A count of the problems
follows the last block.  Where nothing is wrong, one line says how much was checked.
-/

namespace ResourceBundles.Report

def successMark : Text := "✓"

def failureMark : Text := "✘"

def counted (n : Nat) (one many : Text) : Text :=
  Text.decimal n ++ " " ++ Text.plural n one many

def place (i : Issue) : Text :=
  match i.line? with
  | some line => i.file ++ ":" ++ Text.decimal line
  | none => i.file

/-- A remark below the place of an issue.  Its mark stands behind a column of line
numbers of the given width. -/
def remark (lineWidth : Nat) (label content : Text) : Text :=
  Text.line (List.replicate lineWidth ' ' ++ " = " ++ label ++ ": " ++ content)

def block (lineWidth : Nat) (i : Issue) : Text :=
  Text.line (i.severity.name ++ ": \"" ++ i.message ++ "\"  " ++ i.rule.name) ++
  Text.line ("  --> " ++ place i) ++
  i.details?.elim [] (remark lineWidth "note") ++
  i.hint?.elim [] (remark lineWidth "hint") ++
  Text.line []

/-- The width of the largest line number, at least one. -/
def lineWidth (issues : List Issue) : Nat :=
  (Text.decimal ((issues.filterMap Issue.line?).foldl max 0)).length

def problemCount (issues : List Issue) : Text :=
  Text.line (failureMark ++ " " ++ counted issues.length "problem" "problems" ++ " ("
    ++ counted (Issue.count .error issues) "error" "errors" ++ ", "
    ++ counted (Issue.count .warning issues) "warning" "warnings" ++ ")")

/-- The report of some issues in their order, empty if there are none. -/
def ofIssues (issues : List Issue) : Text :=
  if issues = [] then []
  else issues.flatMap (block (lineWidth issues)) ++ problemCount issues

def success (bundles entries : Nat) : Text :=
  Text.line (successMark ++ " Checked " ++ counted bundles "bundle" "bundles" ++ ", "
    ++ counted entries "entry" "entries" ++ " - no issues found")

/-- What is told about bundles that hold no entries because they cannot be read.  A
verbose run has told about each of them. -/
def unreadLog (verbose : Bool) (count : Nat) : Text :=
  if 0 < count ∧ !verbose then
    Text.line ("warning: " ++ Text.decimal count
      ++ " bundle(s) could not be parsed (use -v for details)")
  else []

end ResourceBundles.Report
