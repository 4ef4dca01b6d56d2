import ResourceBundles.Text.Basic

/-!
# JSON values

The data that the program writes, and its text: two spaces of indentation for
every level, one item on a line, and empty arrays and objects closed at once.
Only quotes, backslashes and control characters of strings are escaped.
-/

namespace ResourceBundles

/-- The JSON values that occur in output.  Members keep their order. -/
inductive Json where
  | null
  | bool (value : Bool)
  | string (value : Text)
  | array (items : List Json)
  | object (members : List (Text × Json))

namespace Json

def twoHexDigits (n : Nat) : Text :=
  if n < 16 then '0' :: Text.hexadecimal n else Text.hexadecimal n

def escapeChar (c : Char) : Text :=
  match c with
  | '"' => "\\\""
  | '\\' => "\\\\"
  | '\x08' => "\\b"
  | '\x0c' => "\\f"
  | '\n' => "\\n"
  | '\r' => "\\r"
  | '\t' => "\\t"
  | c => if c.toNat < 0x20 then "\\u00" ++ twoHexDigits c.toNat else [c]

def encodeString (t : Text) : Text := "\"" ++ t.flatMap escapeChar ++ "\""

def newLine (level : Nat) : Text := '\n' :: List.replicate (2 * level) ' '

mutual

/-- The text of a value whose last line is indented to a given level. -/
def pretty (level : Nat) : Json → Text
  | null => "null"
  | bool value => if value then "true" else "false"
  | string value => encodeString value
  | array items =>
    match items with
    | [] => "[]"
    | item :: rest =>
      "[" ++ newLine (level + 1) ++ pretty (level + 1) item
        ++ prettyItems (level + 1) rest ++ newLine level ++ "]"
  | object members =>
    match members with
    | [] => "\x7b\x7d"
    | (key, value) :: rest =>
      "\x7b" ++ newLine (level + 1) ++ encodeString key ++ ": " ++ pretty (level + 1) value
        ++ prettyMembers (level + 1) rest ++ newLine level ++ "\x7d"

def prettyItems (level : Nat) : List Json → Text
  | [] => []
  | item :: rest => "," ++ newLine level ++ pretty level item ++ prettyItems level rest

def prettyMembers (level : Nat) : List (Text × Json) → Text
  | [] => []
  | (key, value) :: rest =>
    "," ++ newLine level ++ encodeString key ++ ": " ++ pretty level value
      ++ prettyMembers level rest

end

def render (j : Json) : Text := pretty 0 j

end Json
end ResourceBundles
