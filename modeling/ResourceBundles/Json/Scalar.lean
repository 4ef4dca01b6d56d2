import ResourceBundles.Json.Cursor
import ResourceBundles.Number.Binary64
import ResourceBundles.Text.Units

/-!
# Words, strings and numbers of JSON

Readers for the values without parts.  A reader starts behind the character that
tells which kind of value it is about to read, except for numbers.  Strings must
be made of characters: a surrogate without its partner is refused.
-/

namespace ResourceBundles.Json

def readWord : Text → Cursor → Except ReadError Cursor
  | [], k => .ok k
  | c :: word, k =>
    match k.next? with
    | none => k.fail .unfinishedValue
    | some (d, k) => if d = c then readWord word k else k.fail .expectedWord

def readUnit (k : Cursor) : Except ReadError (UInt16 × Cursor) :=
  if Text.utf8Length k.rest < 4 then .error ⟨.unfinishedString, k.finish⟩
  else
    match k.rest with
    | a :: b :: c :: d :: _ =>
      if [a, b, c, d].all Text.isHexDigit then
        .ok (UInt16.ofNat (Text.ofHexDigits [a, b, c, d]),
          k.advance.advance.advance.advance)
      else .error ⟨.invalidEscape, Cursor.positionAfterBytes k.position 4 k.rest⟩
    | t => .error ⟨.invalidEscape, Cursor.positionAfterBytes k.position 4 t⟩

/-- Read a given character of the second half of a pair. -/
def readPairChar (c : Char) (k : Cursor) : Except ReadError Cursor :=
  match k.peek? with
  | none => k.fail .unfinishedString
  | some d => if d = c then .ok k.advance else k.failNext .unfinishedPair

/-- Read the character of one or two unit escapes behind the letter of the first. -/
def readUnits (k : Cursor) : Except ReadError (Char × Cursor) := do
  let (u, k) ← readUnit k
  if Utf16.isLow u then k.fail .loneSurrogate
  else if Utf16.isHigh u then
    let k ← readPairChar '\\' k
    let k ← readPairChar 'u' k
    let (v, k) ← readUnit k
    if Utf16.isLow v then return (Utf16.ofPair u v, k) else k.fail .loneSurrogate
  else return (Utf16.ofUnit u, k)

/-- The character that a letter behind a backslash stands for. -/
def escapedChar? (c : Char) : Option Char :=
  match c with
  | '"' => some '"'
  | '\\' => some '\\'
  | '/' => some '/'
  | 'b' => some '\x08'
  | 'f' => some '\x0c'
  | 'n' => some '\n'
  | 'r' => some '\r'
  | 't' => some '\t'
  | _ => none

def readEscape (k : Cursor) : Except ReadError (Char × Cursor) :=
  match k.next? with
  | none => k.fail .unfinishedString
  | some (c, k) =>
    if c = 'u' then readUnits k
    else
      match escapedChar? c with
      | some d => .ok (d, k)
      | none => k.fail .invalidEscape

/-- Read a string behind its opening quote, of at most `fuel` characters. -/
def readCharsFrom : Nat → Cursor → Except ReadError (Text × Cursor)
  | 0, k => k.fail .unfinishedString
  | fuel + 1, k =>
    match k.next? with
    | none => k.fail .unfinishedString
    | some ('"', k) => .ok ([], k)
    | some ('\\', k) => do
      let (c, k) ← readEscape k
      let (t, k) ← readCharsFrom fuel k
      return (c :: t, k)
    | some (c, k) =>
      if c.toNat < 0x20 then k.fail .controlCharacter
      else do
        let (t, k) ← readCharsFrom fuel k
        return (c :: t, k)

def readChars (k : Cursor) : Except ReadError (Text × Cursor) :=
  readCharsFrom (k.rest.length + 1) k

/-- Pass over a string behind its opening quote, of at most `fuel` characters.  What
the escapes stand for does not matter. -/
def skipCharsFrom : Nat → Cursor → Except ReadError Cursor
  | 0, k => k.fail .unfinishedString
  | fuel + 1, k =>
    match k.next? with
    | none => k.fail .unfinishedString
    | some ('"', k) => .ok k
    | some ('\\', k) =>
      match k.next? with
      | none => k.fail .unfinishedString
      | some ('u', k) =>
        match readUnit k with
        | .ok (_, k) => skipCharsFrom fuel k
        | .error e => .error e
      | some (c, k) =>
        if (escapedChar? c).isSome then skipCharsFrom fuel k else k.fail .invalidEscape
    | some (c, k') =>
      if c.toNat < 0x20 then k.fail .controlCharacter else skipCharsFrom fuel k'

def skipChars (k : Cursor) : Except ReadError Cursor := skipCharsFrom (k.rest.length + 1) k

def atDigit (k : Cursor) : Bool := k.peek?.any Char.isDigit

def atExponent (k : Cursor) : Bool := k.peek?.any fun c => c == 'e' || c == 'E'

def digitsAt (k : Cursor) : Text := k.rest.takeWhile Char.isDigit

def skipDigits (k : Cursor) : Cursor := k.skipWhile Char.isDigit

def readChar (k : Cursor) (r : Reason) : Except ReadError (Char × Cursor) :=
  match k.next? with
  | none => k.fail r
  | some result => .ok result

/-- The whole part of a number: one zero, or digits that start with another one.
`missing` is the reason to give where the text ends. -/
def readWhole (missing : Reason) (k : Cursor) : Except ReadError (Text × Cursor) := do
  let (c, k') ← readChar k missing
  if c = '0' then
    if atDigit k' then k'.failNext .invalidNumber else return (['0'], k')
  else if c.isDigit then return (digitsAt k, skipDigits k)
  else k'.fail .invalidNumber

def readFraction (missing : Reason) (k : Cursor) : Except ReadError (Text × Cursor) :=
  let k := k.advance
  if atDigit k then .ok (digitsAt k, skipDigits k)
  else if k.peek?.isNone then k.failNext missing
  else k.failNext .invalidNumber

def readExponent (missing : Reason) (k : Cursor) : Except ReadError (Int × Cursor) := do
  let k := k.advance
  let negative := k.peek? == some '-'
  let k := if negative || k.peek? == some '+' then k.advance else k
  let (c, k') ← readChar k missing
  if c.isDigit then
    let n : Int := Nat.ofDigitChars 10 (digitsAt k) 0
    return (if negative then -n else n, skipDigits k)
  else k'.fail .invalidNumber

/-- What a number with a fraction or an exponent, or one outside the integers, is
called. -/
def describeDecimal (negative : Bool) (digits : Text) (exponent : Int) (k : Cursor) :
    Except ReadError (Text × Cursor) :=
  match Binary64.ofDecimal? (Nat.ofDigitChars 10 digits 0) exponent with
  | none => k.fail .numberOutOfRange
  | some units =>
    let sign : Text := if negative then "-" else []
    .ok ("floating point `" ++ sign ++ Binary64.render units ++ "`", k)

/-- Read a number behind its minus sign, if it has one, and tell what it is called.
Integers have at most 64 bits; zero is no integer behind a minus sign. -/
def readNumber (negative : Bool) (k : Cursor) : Except ReadError (Text × Cursor) := do
  let (whole, k) ← readWhole .unfinishedValue k
  if k.peek? = some '.' then
    let (fraction, k) ← readFraction .unfinishedValue k
    let (e, k) ← if atExponent k then readExponent .unfinishedValue k else .ok (0, k)
    describeDecimal negative (whole ++ fraction) (e - fraction.length) k
  else if atExponent k then
    let (e, k) ← readExponent .unfinishedValue k
    describeDecimal negative whole e k
  else
    let n := Nat.ofDigitChars 10 whole 0
    if negative = false ∧ n < UInt64.size then return ("integer `" ++ Text.decimal n ++ "`", k)
    else if negative = true ∧ 0 < n ∧ n ≤ Int64.minValue.toInt.natAbs then
      return ("integer `-" ++ Text.decimal n ++ "`", k)
    else describeDecimal negative whole 0 k

def skipNumber (k : Cursor) : Except ReadError Cursor := do
  let (_, k) ← readWhole .invalidNumber k
  let k ← if k.peek? = some '.' then Prod.snd <$> readFraction .invalidNumber k else .ok k
  if atExponent k then Prod.snd <$> readExponent .invalidNumber k else return k

end ResourceBundles.Json
