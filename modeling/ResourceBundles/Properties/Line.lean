import ResourceBundles.Text.Basic

/-!
# Lines of a properties text

A natural line ends at a line feed, at a carriage return, or at both together.
A logical line holds one entry: it starts at a natural line that is neither blank
nor a comment, and it goes on over the next natural line as long as its text ends
in an odd number of backslashes, the last of which is dropped.  Blanks at the
start of a natural line are dropped.
-/

namespace ResourceBundles.Properties

/-- The characters that count as blank: space, tab and form feed. -/
def isBlank (c : Char) : Bool := c == ' ' || c == '\t' || c == '\x0c'

def dropBlanks (t : Text) : Text := t.dropWhile isBlank

def pushChar (c : Char) : List Text → List Text
  | [] => [[c]]
  | l :: ls => (c :: l) :: ls

/-- The natural lines of a text.  There is no line behind the last line end. -/
def naturalLines : Text → List Text
  | [] => []
  | '\r' :: '\n' :: t => [] :: naturalLines t
  | '\r' :: t => [] :: naturalLines t
  | '\n' :: t => [] :: naturalLines t
  | c :: t => pushChar c (naturalLines t)

/-- A logical line, with the number of its first natural line counted from 1. -/
structure LogicalLine where
  number : Nat
  text : Text
deriving DecidableEq

/-- Whether a text ends in an odd number of backslashes. -/
def isContinued (t : Text) : Bool :=
  (t.reverse.takeWhile (· == '\\')).length % 2 == 1

/-- Whether a line without leading blanks holds no entry. -/
def isSkipped (t : Text) : Bool :=
  match t with
  | [] => true
  | c :: _ => c == '#' || c == '!'

/-- The logical line that a natural line belongs to, given the line before it if
that one is still open. -/
def LogicalLine.extend? (number : Nat) (open? : Option LogicalLine) (natural : Text) :
    Option LogicalLine :=
  match open? with
  | some line => some { line with text := line.text ++ dropBlanks natural }
  | none =>
    if isSkipped (dropBlanks natural) then none
    else some { number := number, text := dropBlanks natural }

/-- The logical lines of some natural lines, given the number of the first of them
and the logical line that is still open.  An open line ends with the text. -/
def logicalLinesFrom (number : Nat) (open? : Option LogicalLine) :
    List Text → List LogicalLine
  | [] => open?.toList
  | natural :: rest =>
    match LogicalLine.extend? number open? natural with
    | none => logicalLinesFrom (number + 1) none rest
    | some line =>
      if isContinued line.text then
        logicalLinesFrom (number + 1) (some { line with text := line.text.dropLast }) rest
      else line :: logicalLinesFrom (number + 1) none rest

def logicalLines (t : Text) : List LogicalLine := logicalLinesFrom 1 none (naturalLines t)

end ResourceBundles.Properties
