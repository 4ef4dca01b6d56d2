import ResourceBundles.Number.Binary64

/-!
# Limits of choice intervals

A limit is a number of the binary64 format or an infinity, written as a decimal
with an optional exponent.  A finite limit is held as a multiple of `2 ^ -1074` and
compared exactly; decimals are rounded to the nearest number of the format.
-/

namespace ResourceBundles

/-- The end of an interval on the extended number line. -/
inductive Limit where
  | negInfinity
  /-- The number `units * 2 ^ -1074`. -/
  | finite (units : Int)
  | infinity
deriving DecidableEq

namespace Limit

def lt : Limit → Limit → Bool
  | negInfinity, negInfinity => false
  | negInfinity, _ => true
  | finite m, finite n => m < n
  | finite _, infinity => true
  | _, _ => false

/-- The number `digits * 10 ^ exponent`, rounded. -/
def ofDecimal (digits : Nat) (exponent : Int) : Limit :=
  match Binary64.ofDecimal? digits exponent with
  | some units => finite units
  | none => infinity

/-- The exponent of a decimal: nothing, or an `e` of either case and an integer. -/
def exponent? : Text → Option Int
  | [] => some 0
  | c :: t => if c = 'e' ∨ c = 'E' then Text.integer? t else none

/-- The digits behind the point of a decimal, and the text behind them. -/
def fraction : Text → Text × Text
  | '.' :: t => (t.takeWhile Char.isDigit, t.dropWhile Char.isDigit)
  | t => ([], t)

/-- A decimal without a sign: digits on at least one side of an optional point,
and an optional exponent. -/
def decimal? (t : Text) : Option Limit :=
  let whole := t.takeWhile Char.isDigit
  let (part, rest) := fraction (t.dropWhile Char.isDigit)
  if whole = [] ∧ part = [] then none
  else
    (exponent? rest).map fun e =>
      ofDecimal (Nat.ofDigitChars 10 (whole ++ part) 0) (e - part.length)

/-- A limit without a sign: a decimal or a word for infinity in any case. -/
def magnitude? (t : Text) : Option Limit :=
  if Text.asciiLower t = "inf" ∨ Text.asciiLower t = "infinity" then some infinity
  else decimal? t

def neg : Limit → Limit
  | negInfinity => infinity
  | finite n => finite (-n)
  | infinity => negInfinity

/-- The limit that a text stands for, if any.  The sign `∞` stands for infinity,
alone or behind a minus sign. -/
def parse? : Text → Option Limit
  | ['∞'] => some infinity
  | ['-', '∞'] => some negInfinity
  | '-' :: t => (magnitude? t).map neg
  | '+' :: t => magnitude? t
  | t => magnitude? t

end Limit
end ResourceBundles
