import ResourceBundles.Analysis
import ResourceBundles.KeyTree.View
import ResourceBundles.Report.Issues
import ResourceBundles.Text.Width

/-!
# Drawings of key trees

A key tree is drawn with one row for every node but the root.  A row has the name of
the node behind lines that lead to its parent, and the argument types of a value that
is a format.  The values stand in a second column, all at the same distance from the
left margin.
-/

namespace ResourceBundles

inductive RowDetail where
  | value (text : Text)
  | failure (error : PatternError)
deriving DecidableEq

structure Row where
  label : Text
  detail : Option RowDetail
deriving DecidableEq

def RowDetail.text : RowDetail → Text
  | value t => Text.quoted t
  | failure e => Report.failureMark ++ " " ++ e.message

namespace Report

def connector (last : Bool) : Text := if last then "└── " else "├── "

def stem (last : Bool) : Text := if last then "    " else "│   "

def argumentList (types : List TypeSet) : Text :=
  "(" ++ [',', ' '].intercalate (types.map TypeSet.label) ++ ")"

def labelEnd (s : Option Signature) : Text :=
  match s.map Signature.arguments with
  | some (.ok types) => argumentList types
  | _ => []

/-- What a signature puts into the second column of its row. -/
def detailOf (s : Signature) : RowDetail :=
  match s.arguments with
  | .ok _ => .value s.value
  | .error e => .failure e

/-- The row of a node with a given name and signature, behind the stems of its
ancestors. -/
def row (stems : Text) (last : Bool) (name : Text) (s : Option Signature) : Row :=
  { label := stems ++ connector last ++ name ++ labelEnd s
    detail := s.map detailOf }

mutual

def rowsOf (signature? : Text → Option Signature) (stems : Text) (last : Bool) :
    NodeView → List Row
  | .mk name path _ children =>
    row stems last name (signature? path) :: rowsBelow signature? (stems ++ stem last) children

def rowsBelow (signature? : Text → Option Signature) (stems : Text) : List NodeView → List Row
  | [] => []
  | v :: vs => rowsOf signature? stems vs.isEmpty v ++ rowsBelow signature? stems vs

end

def labelWidth (width : Text → Nat) (rows : List Row) : Nat :=
  (rows.map fun r => width r.label).foldl max 0

/-- The text of a row, given the width of the first column. -/
def rowText (width : Text → Nat) (column : Nat) (r : Row) : Text :=
  match r.detail with
  | none => r.label
  | some d => r.label ++ List.replicate (column - width r.label) ' ' ++ "  " ++ d.text

/-- The text of some rows, given how wide a text is shown. -/
def drawing (width : Text → Nat) (rows : List Row) : Text :=
  rows.flatMap fun r => Text.line (rowText width (labelWidth width rows) r)

end Report

namespace Analysis

def signature? (a : Analysis) (path : Text) : Option Signature :=
  a.signatures.find? fun s => s.path = path

def rows (a : Analysis) : List Row := Report.rowsBelow a.signature? [] a.tree.view.children

/-- The drawing of the key tree, below a line with the name and the file of the
bundle. -/
def drawing (a : Analysis) : Text :=
  Text.line (a.source.name ++ "  " ++ a.source.path.text) ++
  (if a.rows = [] then Text.line "(no entries)" else Report.drawing Text.width a.rows)

end Analysis

def TypeSet.toJson (s : TypeSet) : Json := .array (s.kinds.map fun k => .string k.name)

def Signature.toJson (s : Signature) : Json :=
  .object <| ("path", .string s.path) ::
    match s.arguments with
    | .ok types =>
      [("arguments", .array (types.map TypeSet.toJson)),
        ("preferredKinds", .array (types.map fun t => .string t.preferred.name))]
    | .error e => [("error", .string e.message)]

def Analysis.toJson (a : Analysis) : Json :=
  .object [("bundle", .string a.source.name), ("file", .string a.source.path.text),
    ("tree", a.tree.toJson), ("signatures", .array (a.signatures.map Signature.toJson))]

end ResourceBundles
