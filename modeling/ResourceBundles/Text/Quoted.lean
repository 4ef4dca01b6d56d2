import ResourceBundles.Text.Property

/-!
# Quoted texts

A text in double quotes that shows each of its characters.  The quote and the
backslash are escaped, and so is every character that cannot be seen or that
would merge with its neighbour.
-/

namespace ResourceBundles.Text

/-- The visible form of a character inside double quotes. -/
def quoteChar (c : Char) : Text :=
  match c with
  | '\x00' => "\\0"
  | '\t' => "\\t"
  | '\r' => "\\r"
  | '\n' => "\\n"
  | '\\' => "\\\\"
  | '"' => "\\\""
  | c =>
    if isGraphemeExtend c || !isPrintable c then
      "\\u\x7b" ++ hexadecimal c.toNat ++ "\x7d"
    else [c]

def quoted (t : Text) : Text := "\"" ++ t.flatMap quoteChar ++ "\""

end ResourceBundles.Text
