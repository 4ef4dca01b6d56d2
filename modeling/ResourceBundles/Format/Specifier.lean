import ResourceBundles.Format.Basic

/-!
# Conversion specifiers

A specifier is written `%[index$][flags][width][.precision][t]conversion`.
Every part but the conversion may be missing, and each part takes as many
characters as it can.  A `t` or `T` marks a date or time only in front of a
further conversion character; otherwise it is the conversion itself.
-/

namespace ResourceBundles

structure Specifier where
  index : Option Text
  flags : Text
  width : Text
  precision : Option Text
  dateMark : Option Char
  conversion : Char
deriving DecidableEq

inductive Addressing where
  /-- The specifier writes fixed text and takes no argument. -/
  | literal
  /-- The argument of the specifier before it. -/
  | relative
  /-- The next argument in sequence. -/
  | ordinary
  /-- The argument at a given position, counted from 0. -/
  | explicit (position : Nat)
deriving DecidableEq

namespace Specifier

def isFlag (c : Char) : Bool := ['-', '#', '+', ' ', '0', ',', '(', '<'].contains c

def isConversion (c : Char) : Bool := c.isAlpha || c == '%'

def isDateMark (c : Char) : Bool := c == 't' || c == 'T'

/-- Digits before a dollar sign, and the text behind it. -/
def readIndex (t : Text) : Option Text × Text :=
  match t.takeWhile Char.isDigit, t.dropWhile Char.isDigit with
  | d :: ds, '$' :: rest => (some (d :: ds), rest)
  | _, _ => (none, t)

def readPrecision : Text → Option Text × Text
  | '.' :: t =>
    match t.takeWhile Char.isDigit with
    | [] => (none, '.' :: t)
    | d :: ds => (some (d :: ds), t.dropWhile Char.isDigit)
  | t => (none, t)

/-- The date mark, if there is one, the conversion, and the text behind them. -/
def readConversion : Text → Option (Option Char × Char × Text)
  | [] => none
  | [c] => if isConversion c then some (none, c, []) else none
  | c :: d :: rest =>
    if isDateMark c && isConversion d then some (some c, d, rest)
    else if isConversion c then some (none, c, d :: rest)
    else none

/-- The specifier at the start of a text that follows a percent sign, and the
text behind it. -/
def read? (t : Text) : Option (Specifier × Text) :=
  let (index, afterIndex) := readIndex t
  let afterFlags := afterIndex.dropWhile isFlag
  let (precision, afterPrecision) := readPrecision (afterFlags.dropWhile Char.isDigit)
  (readConversion afterPrecision).map fun (mark, conversion, rest) =>
    ({ index := index
       flags := afterIndex.takeWhile isFlag
       width := afterFlags.takeWhile Char.isDigit
       precision := precision
       dateMark := mark
       conversion := conversion }, rest)

theorem length_dropWhile_le (p : Char → Bool) (t : Text) :
    (t.dropWhile p).length ≤ t.length :=
  (List.dropWhile_suffix p).length_le

theorem length_readIndex_le (t : Text) : (readIndex t).2.length ≤ t.length := by
  unfold readIndex
  split
  next d ds rest _ h =>
    have := length_dropWhile_le Char.isDigit t
    simp only [h, List.length_cons] at this
    simp only
    omega
  next => simp

theorem length_readPrecision_le (t : Text) : (readPrecision t).2.length ≤ t.length := by
  unfold readPrecision
  split
  next t =>
    split
    next => simp
    next =>
      have := length_dropWhile_le Char.isDigit t
      simp only [List.length_cons]
      omega
  next => simp

theorem length_readConversion_lt {t rest : Text} {m : Option Char} {c : Char}
    (h : readConversion t = some (m, c, rest)) : rest.length < t.length := by
  unfold readConversion at h
  grind

theorem length_read?_lt {t rest : Text} {s : Specifier} (h : read? t = some (s, rest)) :
    rest.length < t.length := by
  simp only [read?, Option.map_eq_some_iff, Prod.mk.injEq, Prod.exists] at h
  obtain ⟨m, c, r, hr, _, rfl⟩ := h
  have h1 := length_readConversion_lt hr
  have h2 := length_readPrecision_le
    (((readIndex t).2.dropWhile isFlag).dropWhile Char.isDigit)
  have h3 := length_dropWhile_le Char.isDigit ((readIndex t).2.dropWhile isFlag)
  have h4 := length_dropWhile_le isFlag (readIndex t).2
  have h5 := length_readIndex_le t
  omega

/-- The specifiers of a format from left to right.  A percent sign that starts
no specifier is fixed text. -/
def scan : Text → List Specifier
  | [] => []
  | c :: t =>
    if c = '%' then
      match h : read? t with
      | some (s, rest) =>
        have : rest.length < t.length := length_read?_lt h
        s :: scan rest
      | none => scan t
    else scan t
termination_by t => t.length

def isLiteral (c : Char) : Bool := c == '%' || c == 'n'

/-- The kind of value that a conversion character formats. -/
def family (c : Char) : Kind :=
  match c with
  | 'b' | 'B' => .boolean
  | 'c' | 'C' => .character
  | 'd' | 'o' | 'x' | 'X' => .integer
  | 'e' | 'E' | 'f' | 'g' | 'G' | 'a' | 'A' => .floating
  | _ => .universal

def kind (s : Specifier) : Kind :=
  if s.dateMark.isSome then .dateTime else family s.conversion

/-- How the specifier finds its argument, or `none` if its index names no
usable position.  Indices count from 1; index 0 names no argument and takes the
next one in sequence. -/
def addressing? (s : Specifier) : Option Addressing :=
  if isLiteral s.conversion then some .literal
  else
    match s.index with
    | some digits =>
      match Nat.ofDigitChars 10 digits 0 with
      | 0 => some .ordinary
      | n + 1 => if n < positionLimit then some (.explicit n) else none
    | none => if s.flags.contains '<' then some .relative else some .ordinary

/-- How the specifiers of a format find their arguments, and the kind each of
them formats; specifiers without a usable index are left out. -/
def references (t : Text) : List (Addressing × Kind) :=
  (scan t).filterMap fun s => s.addressing?.map fun a => (a, s.kind)

end Specifier
end ResourceBundles
