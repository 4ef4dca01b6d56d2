import ResourceBundles.Text.Basic

/-!
# Cursors

A place in a JSON text: the text that is left, and where it starts.  Lines count
from 1, columns count the bytes of the line in front of the place.
-/

namespace ResourceBundles.Json

structure Position where
  line : Nat
  column : Nat
deriving DecidableEq

def Position.after (p : Position) (c : Char) : Position :=
  if c = '\n' then ⟨p.line + 1, 0⟩ else { p with column := p.column + c.utf8Size }

structure Cursor where
  position : Position
  rest : Text
deriving DecidableEq

namespace Cursor

def start (t : Text) : Cursor := ⟨⟨1, 0⟩, t⟩

def peek? (k : Cursor) : Option Char := k.rest.head?

def next? (k : Cursor) : Option (Char × Cursor) :=
  match k.rest with
  | [] => none
  | c :: rest => some (c, ⟨k.position.after c, rest⟩)

def advance (k : Cursor) : Cursor := (k.next?.map Prod.snd).getD k

/-- The position behind the first byte of the next character. -/
def peekPosition (k : Cursor) : Position :=
  match k.rest with
  | [] => k.position
  | c :: _ =>
    if c = '\n' then k.position.after c
    else { k.position with column := k.position.column + 1 }

/-- The place behind the characters at the start of the rest that satisfy `p`. -/
def skipWhile (p : Char → Bool) (k : Cursor) : Cursor :=
  ⟨(k.rest.takeWhile p).foldl Position.after k.position, k.rest.dropWhile p⟩

/-- The characters that may stand between the parts of a JSON text. -/
def isBlank (c : Char) : Bool := c == ' ' || c == '\n' || c == '\t' || c == '\r'

/-- The place behind the blanks at the start of the rest. -/
def skipBlanks (k : Cursor) : Cursor := k.skipWhile isBlank

def finish (k : Cursor) : Position := k.rest.foldl Position.after k.position

/-- The position a number of bytes further on, which may lie inside a character. -/
def positionAfterBytes (p : Position) : Nat → Text → Position
  | _, [] => p
  | n, c :: t =>
    if n = 0 then p
    else if n < c.utf8Size then { p with column := p.column + n }
    else positionAfterBytes (p.after c) (n - c.utf8Size) t

end Cursor

/-- Why a JSON text cannot be read as what is expected of it. -/
inductive Reason where
  | unfinishedList
  | unfinishedObject
  | unfinishedString
  | unfinishedValue
  | expectedColon
  | expectedListEnd
  | expectedObjectEnd
  | expectedWord
  | expectedValue
  | invalidEscape
  | invalidNumber
  | numberOutOfRange
  | controlCharacter
  | keyNotString
  | loneSurrogate
  | unfinishedPair
  | trailingComma
  | trailingCharacters
  /-- A value has another type than the expected one. -/
  | invalidType (found expected : Text)
  /-- A word is none of those that are expected. -/
  | unknownVariant (found : Text) (expected : List Text)
  /-- A field is given twice. -/
  | duplicateField (name : Text)
deriving DecidableEq

inductive ErrorClass where
  /-- The text is no JSON. -/
  | malformed
  /-- The text is JSON of another form than the expected one. -/
  | unsuitable
  /-- The text ends too early. -/
  | unfinished
deriving DecidableEq

/-- A list of words to choose from, each between grave accents. -/
def choiceOf : List Text → Text
  | [] => "there are no variants"
  | [a] => "`" ++ a ++ "`"
  | [a, b] => "`" ++ a ++ "` or `" ++ b ++ "`"
  | words => "one of " ++ [',', ' '].intercalate (words.map fun w => "`" ++ w ++ "`")

namespace Reason

def errorClass : Reason → ErrorClass
  | unfinishedList | unfinishedObject | unfinishedString | unfinishedValue => .unfinished
  | invalidType .. | unknownVariant .. | duplicateField .. => .unsuitable
  | _ => .malformed

def message : Reason → Text
  | unfinishedList => "EOF while parsing a list"
  | unfinishedObject => "EOF while parsing an object"
  | unfinishedString => "EOF while parsing a string"
  | unfinishedValue => "EOF while parsing a value"
  | expectedColon => "expected `:`"
  | expectedListEnd => "expected `,` or `]`"
  | expectedObjectEnd => "expected `,` or `\x7d`"
  | expectedWord => "expected ident"
  | expectedValue => "expected value"
  | invalidEscape => "invalid escape"
  | invalidNumber => "invalid number"
  | numberOutOfRange => "number out of range"
  | controlCharacter =>
    "control character (\\u0000-\\u001F) found while parsing a string"
  | keyNotString => "key must be a string"
  | loneSurrogate => "lone leading surrogate in hex escape"
  | unfinishedPair => "unexpected end of hex escape"
  | trailingComma => "trailing comma"
  | trailingCharacters => "trailing characters"
  | invalidType found expected => "invalid type: " ++ found ++ ", expected " ++ expected
  | unknownVariant found expected =>
    "unknown variant `" ++ found ++ "`, expected " ++ choiceOf expected
  | duplicateField name => "duplicate field `" ++ name ++ "`"

end Reason

structure ReadError where
  reason : Reason
  position : Position
deriving DecidableEq

def ReadError.message (e : ReadError) : Text :=
  e.reason.message ++ " at line " ++ Text.decimal e.position.line ++ " column "
    ++ Text.decimal e.position.column

def Cursor.fail {α : Type} (k : Cursor) (r : Reason) : Except ReadError α :=
  .error ⟨r, k.position⟩

def Cursor.failNext {α : Type} (k : Cursor) (r : Reason) : Except ReadError α :=
  .error ⟨r, k.peekPosition⟩

end ResourceBundles.Json
