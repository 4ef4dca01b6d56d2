import ResourceBundles.Properties.Line

/-!
# Keys and values

The key of a logical line ends before the first blank, equals sign or colon that
no backslash escapes.  Blanks, at most one equals sign or colon, and blanks again
separate it from the value.
-/

namespace ResourceBundles.Properties

def isSign (c : Char) : Bool := c == '=' || c == ':'

def endsKey (c : Char) : Bool := isSign c || isBlank c

/-- Cut a line before the first character that ends its key, given whether a
backslash escapes the first character. -/
def cutKey (escaped : Bool) : Text → Text × Text
  | [] => ([], [])
  | c :: t =>
    if c = '\\' then (c :: (cutKey (!escaped) t).1, (cutKey (!escaped) t).2)
    else if !escaped && endsKey c then ([], c :: t)
    else (c :: (cutKey false t).1, (cutKey false t).2)

def dropSeparator (t : Text) : Text :=
  match dropBlanks t with
  | [] => []
  | c :: rest => if isSign c then dropBlanks rest else c :: rest

/-- The key and the value of a line, both still escaped. -/
def splitEntry (t : Text) : Text × Text :=
  ((cutKey false t).1, dropSeparator (cutKey false t).2)

theorem cutKey_append (escaped : Bool) (t : Text) :
    (cutKey escaped t).1 ++ (cutKey escaped t).2 = t := by
  induction t generalizing escaped with
  | nil => rfl
  | cons c t ih =>
    simp only [cutKey]
    split
    · simp [ih]
    split
    · rfl
    · simp [ih]

end ResourceBundles.Properties
