import ResourceBundles.Text.Units

/-!
# Escapes

A backslash gives the next character a meaning of its own: `t`, `n`, `r` and `f`
stand for control characters, `u` and four hexadecimal digits for a UTF-16 unit,
and any other character for itself.  Units that follow each other directly are
decoded together, so two of them may form one character.
-/

namespace ResourceBundles.Properties

/-- The character that a letter behind a backslash stands for. -/
def escapedChar (c : Char) : Char :=
  match c with
  | 't' => '\t'
  | 'n' => '\n'
  | 'r' => '\r'
  | 'f' => '\x0c'
  | c => c

def hexUnit (digits : Text) : UInt16 := UInt16.ofNat (Text.ofHexDigits digits)

/-- Resolve the escapes of a text behind some units that are not decoded yet.  On
failure the result is the text, of four characters at most, that stands in place
of four digits. -/
def unescapeFrom (pending : List UInt16) : Text → Except Text Text
  | [] => .ok (Utf16.decode pending)
  | '\\' :: 'u' :: a :: b :: c :: d :: t =>
    if [a, b, c, d].all Text.isHexDigit then
      unescapeFrom (pending ++ [hexUnit [a, b, c, d]]) t
    else .error [a, b, c, d]
  | '\\' :: 'u' :: digits => .error digits
  | ['\\'] => .ok (Utf16.decode pending)
  | '\\' :: c :: t =>
    (unescapeFrom [] t).map fun r => Utf16.decode pending ++ escapedChar c :: r
  | c :: t => (unescapeFrom [] t).map fun r => Utf16.decode pending ++ c :: r

def unescape (t : Text) : Except Text Text := unescapeFrom [] t

end ResourceBundles.Properties
