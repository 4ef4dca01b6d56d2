/-!
# Texts

A text is a list of characters.  Keys, values, paths and messages are texts;
a `String` appears only where a literal is written and where the program meets
its terminal.  Positions in a text are counted in bytes of its UTF-8 form.
-/

namespace ResourceBundles

abbrev Text := List Char

/-- A literal stands for its characters wherever a text is expected. -/
scoped instance : Coe String Text := ⟨String.toList⟩

namespace Text

def utf8Length : Text → Nat
  | [] => 0
  | c :: t => c.utf8Size + utf8Length t

@[simp] theorem utf8Length_nil : utf8Length [] = 0 := rfl

@[simp] theorem utf8Length_cons (c : Char) (t : Text) :
    utf8Length (c :: t) = c.utf8Size + utf8Length t := rfl

@[simp] theorem utf8Length_append (s t : Text) :
    utf8Length (s ++ t) = utf8Length s + utf8Length t := by
  induction s with
  | nil => simp
  | cons c s ih => simp [ih, Nat.add_assoc]

def decimal (n : Nat) : Text := Nat.toDigits 10 n

/-- The decimal digits of an integer, behind a minus sign if it is negative. -/
def signedDecimal (i : Int) : Text :=
  if i < 0 then '-' :: decimal i.natAbs else decimal i.natAbs

/-- The lower-case hexadecimal digits of a natural number. -/
def hexadecimal (n : Nat) : Text := Nat.toDigits 16 n

def isHexDigit (c : Char) : Bool :=
  c.isDigit || ('a' ≤ c && c ≤ 'f') || ('A' ≤ c && c ≤ 'F')

def hexDigitValue (c : Char) : Nat :=
  if c.isDigit then c.toNat - '0'.toNat
  else if 'a' ≤ c then c.toNat - 'a'.toNat + 10
  else c.toNat - 'A'.toNat + 10

/-- The number that a run of hexadecimal digits stands for. -/
def ofHexDigits (t : Text) : Nat := t.foldl (fun n c => 16 * n + hexDigitValue c) 0

/-- The number that a non-empty run of decimal digits stands for. -/
def natural? (t : Text) : Option Nat :=
  if t ≠ [] ∧ t.all Char.isDigit then some (Nat.ofDigitChars 10 t 0) else none

/-- The integer that decimal digits behind at most one sign stand for. -/
def integer? : Text → Option Int
  | '-' :: t => (natural? t).map fun n => -(n : Int)
  | '+' :: t => (natural? t).map Int.ofNat
  | t => (natural? t).map Int.ofNat

theorem natural?_decimal (n : Nat) : natural? (decimal n) = some n := by
  have hd : (Nat.toDigits 10 n).all Char.isDigit = true := by
    rw [List.all_eq_true]
    exact fun c hc => Nat.isDigit_of_mem_toDigits (b := 10) (by decide) (by decide) hc
  simp [natural?, decimal, hd, Nat.toDigits_ne_nil,
    Nat.ofDigitChars_toDigits (b := 10) (n := n) (by decide) (by decide)]

/-- Every ASCII upper-case letter replaced by its lower-case form. -/
def asciiLower (t : Text) : Text := t.map Char.toLower

/-- Whether a text is a given name, where the case of ASCII letters may be ignored. -/
def isName (ignoreCase : Bool) (name t : Text) : Bool :=
  if ignoreCase then asciiLower t = asciiLower name else t = name

def line (t : Text) : Text := t ++ ['\n']

def plural (n : Nat) (one many : Text) : Text := if n = 1 then one else many

end Text
end ResourceBundles
