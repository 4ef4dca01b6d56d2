import ResourceBundles.Json.Skip
import ResourceBundles.Text.Quoted

/-!
# Reading values of an expected form

Readers that know what value comes next.  A value of another form is named in the
error, and it must be JSON itself as far as its name tells.
-/

namespace ResourceBundles.Json

/-- The error for a value of another form than the expected one. -/
def otherForm {α : Type} (expected : Text) (k : Cursor) : Except ReadError α :=
  let name (found : Text) (k : Cursor) : Except ReadError α :=
    k.fail (.invalidType found expected)
  match k.peek? with
  | some 'n' => do name "null" (← readWord "ull" k.advance)
  | some 't' => do name "boolean `true`" (← readWord "rue" k.advance)
  | some 'f' => do name "boolean `false`" (← readWord "alse" k.advance)
  | some '-' => do
    let (found, k) ← readNumber true k.advance
    name found k
  | some '"' => do
    let (t, k) ← readChars k.advance
    name ("string " ++ Text.quoted t) k
  | some '[' => name "sequence" k
  | some '\x7b' => name "map" k
  | some c =>
    if c.isDigit then do
      let (found, k) ← readNumber false k
      name found k
    else k.failNext .expectedValue
  | none => k.failNext .expectedValue

/-- The next character that is no blank, and its place. -/
def peekValue (k : Cursor) : Except ReadError (Char × Cursor) :=
  let k := k.skipBlanks
  match k.peek? with
  | none => k.failNext .unfinishedValue
  | some c => .ok (c, k)

/-- Read a string; `expected` is what to call it. -/
def readString (expected : Text) (k : Cursor) : Except ReadError (Text × Cursor) := do
  let (c, k) ← peekValue k
  if c = '"' then readChars k.advance else otherForm expected k

/-- Read the word `null`, which stands for the only value of its form. -/
def readNull (k : Cursor) : Except ReadError Cursor := do
  let (c, k) ← peekValue k
  if c = 'n' then readWord "ull" k.advance else otherForm "unit" k

/-- Whether a list goes on behind an opening bracket or an item, and the place of
the item that follows. -/
def nextItem (first : Bool) (k : Cursor) : Except ReadError (Bool × Cursor) :=
  let k := k.skipBlanks
  match k.peek? with
  | none => k.failNext .unfinishedList
  | some c =>
    if c = ']' then .ok (false, k)
    else if first then .ok (true, k)
    else if c = ',' then
      let k := k.advance.skipBlanks
      match k.peek? with
      | none => k.failNext .unfinishedValue
      | some d => if d = ']' then k.failNext .trailingComma else .ok (true, k)
    else k.failNext .expectedListEnd

def closeList (k : Cursor) : Except ReadError Cursor :=
  let k := k.skipBlanks
  match k.peek? with
  | none => k.failNext .unfinishedList
  | some c =>
    if c = ']' then .ok k.advance
    else if c = ',' then
      let k := k.advance.skipBlanks
      if k.peek? = some ']' then k.failNext .trailingComma else k.failNext .trailingCharacters
    else k.failNext .trailingCharacters

/-- Read the strings of a list, of which there are at most `fuel`. -/
def readStringsFrom : Nat → Bool → Cursor → Except ReadError (List Text × Cursor)
  | 0, _, k => .ok ([], k)
  | fuel + 1, first, k => do
    let (more, k) ← nextItem first k
    if more then
      let (t, k) ← readString "a string" k
      let (ts, k) ← readStringsFrom fuel false k
      return (t :: ts, k)
    else return ([], k)

def readStrings (k : Cursor) : Except ReadError (List Text × Cursor) := do
  let (c, k) ← peekValue k
  if c = '[' then
    let (ts, k) ← readStringsFrom (k.rest.length + 1) true k.advance
    return (ts, ← closeList k)
  else otherForm "a sequence" k

/-- Whether an object goes on behind an opening brace or a member, and the place of
the key that follows. -/
def nextMember (first : Bool) (k : Cursor) : Except ReadError (Bool × Cursor) :=
  let k := k.skipBlanks
  match k.peek? with
  | none => k.failNext .unfinishedObject
  | some c =>
    if c = '\x7d' then .ok (false, k)
    else if first then if c = '"' then .ok (true, k) else k.failNext .keyNotString
    else if c = ',' then
      let k := k.advance.skipBlanks
      match k.peek? with
      | none => k.failNext .unfinishedValue
      | some '"' => .ok (true, k)
      | some d => if d = '\x7d' then k.failNext .trailingComma else k.failNext .keyNotString
    else k.failNext .expectedObjectEnd

/-- Read one of some words, each of which stands for a value.  The word stands alone
or is the only key of an object, with the value `null`. -/
def readVariant {α : Type} (find? : Text → Option α) (words : List Text) (k : Cursor) :
    Except ReadError (α × Cursor) := do
  let pick (t : Text) (k : Cursor) : Except ReadError (α × Cursor) :=
    match find? t with
    | some a => .ok (a, k)
    | none => k.fail (.unknownVariant t words)
  let (c, k) ← peekValue k
  if c = '"' then
    let (t, k) ← readChars k.advance
    pick t k
  else if c = '\x7b' then
    let (t, k) ← readString "variant identifier" k.advance
    let (a, k) ← pick t k
    let k ← readNull (← readColon k)
    let k := k.skipBlanks
    match k.peek? with
    | none => k.fail .unfinishedObject
    | some d => if d = '\x7d' then return (a, k.advance) else k.fail .expectedValue
  else k.failNext .expectedValue

def finish (k : Cursor) : Except ReadError Unit :=
  let k := k.skipBlanks
  if k.peek?.isNone then .ok () else k.failNext .trailingCharacters

end ResourceBundles.Json
