import ResourceBundles.Format.Pattern

/-!
# Issues

The problems that an analysis reports.  Issues about an entry carry the file and
the line of the entry; a file that holds no bundle is an issue of its own.
-/

namespace ResourceBundles

inductive Severity where
  | error
  | warning
deriving DecidableEq

def Severity.name : Severity → Text
  | error => "error"
  | warning => "warning"

inductive Rule where
  | patternSyntax
  | emptyKey
  | emptySegment
  | parseError
deriving DecidableEq

namespace Rule

def name : Rule → Text
  | patternSyntax => "pattern-syntax"
  | emptyKey => "empty-key"
  | emptySegment => "empty-segment"
  | parseError => "parse-error"

def rank : Rule → Nat
  | patternSyntax => 0
  | emptyKey => 1
  | emptySegment => 2
  | parseError => 3

end Rule

structure EntryLocation where
  file : Text
  line : Nat
deriving DecidableEq

inductive Issue where
  /-- The value of a key is no message pattern. -/
  | patternSyntax (location : EntryLocation) (key value : Text) (error : PatternError)
  /-- An entry has an empty key, for which the key tree has no place. -/
  | emptyKey (location : EntryLocation) (value : Text)
  /-- A key has an empty segment. -/
  | emptySegment (location : EntryLocation) (key : Text)
  /-- A file holds no bundle. -/
  | parseError (file error : Text)
deriving DecidableEq

namespace Issue

def rule : Issue → Rule
  | patternSyntax .. => .patternSyntax
  | emptyKey .. => .emptyKey
  | emptySegment .. => .emptySegment
  | parseError .. => .parseError

def severity : Issue → Severity
  | patternSyntax .. => .error
  | emptyKey .. => .warning
  | emptySegment .. => .warning
  | parseError .. => .error

def file : Issue → Text
  | patternSyntax location .. => location.file
  | emptyKey location .. => location.file
  | emptySegment location .. => location.file
  | parseError file .. => file

/-- The line that the issue is on, if it is about an entry. -/
def line? : Issue → Option Nat
  | patternSyntax location .. => some location.line
  | emptyKey location .. => some location.line
  | emptySegment location .. => some location.line
  | parseError .. => none

def message : Issue → Text
  | patternSyntax _ key .. => key
  | emptyKey .. => "entry has an empty key"
  | emptySegment _ key => key
  | parseError _ error => error

def details? : Issue → Option Text
  | patternSyntax _ _ value error => some (error.message ++ " (\"" ++ value ++ "\")")
  | emptyKey _ value => some ("(\"" ++ value ++ "\")")
  | emptySegment .. => some "key contains an empty segment"
  | parseError .. => none

def hint? : Issue → Option Text
  | patternSyntax _ _ _ (.unmatchedBraces _) =>
    some "quote literal braces with single quotes, e.g. '\x7b'"
  | _ => none

/-- Issues are ordered by file, line, rule and headline; an issue without a line
comes before those on the first line. -/
instance : Ord Issue where
  compare a b :=
    (compare a.file b.file).then <|
    (compare (a.line?.getD 0) (b.line?.getD 0)).then <|
    (compare a.rule.rank b.rule.rank).then <|
    compare a.message b.message

/-- Whether an issue may stand before another in a sorted report. -/
def le (a b : Issue) : Bool := (compare a b).isLE

def sort (issues : List Issue) : List Issue := issues.mergeSort le

def count (s : Severity) (issues : List Issue) : Nat :=
  (issues.filter fun i => i.severity = s).length

end Issue
end ResourceBundles
