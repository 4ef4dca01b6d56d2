import ResourceBundles.Text.Basic

/-!
# Binary64 numbers

Every finite binary64 number is a whole multiple of `2 ^ -1074`, its unit.  A
magnitude is held as that multiple, so that decimals are read and written with
exact arithmetic: a decimal between two numbers is rounded to the nearer one, and
to the one with the even significand if both are equally near.
-/

namespace ResourceBundles.Binary64

/-- Magnitudes from this number of units on are too large for the format. -/
def bound : Nat := Nat.pow 2 2098

/-- The quotient of two numbers rounded to 53 binary digits. -/
def roundQuotient (num den : Nat) : Nat :=
  let step := Nat.pow 2 ((num / den).log2 - 52)
  let unit := den * step
  let low := num / unit
  let remainder := num % unit
  if unit < 2 * remainder ∨ (unit = 2 * remainder ∧ low % 2 = 1) then (low + 1) * step
  else low * step

/-- The magnitude `digits * 10 ^ exponent` in units, or `none` if it is too large.
Numbers far outside the range of the format are decided by their decimal length
alone. -/
def ofDecimal? (digits : Nat) (exponent : Int) : Option Nat :=
  let length : Int := (Text.decimal digits).length + exponent
  if digits = 0 ∨ length < -330 then some 0
  else if 310 < length then none
  else
    let units :=
      if 0 ≤ exponent then roundQuotient (digits * Nat.pow 10 exponent.toNat * Nat.pow 2 1074) 1
      else roundQuotient (digits * Nat.pow 2 1074) (Nat.pow 10 (-exponent).toNat)
    if units < bound then some units else none

/-- The exponent of the leading decimal digit of a magnitude that is not zero, found
by trying exponents downwards. -/
def leadingExponent (units : Nat) : Nat → Int → Int
  | 0, e => e
  | fuel + 1, e =>
    let reached :=
      if 0 ≤ e then Nat.pow 10 e.toNat * Nat.pow 2 1074 ≤ units
      else Nat.pow 2 1074 ≤ units * Nat.pow 10 (-e).toNat
    if reached then e else leadingExponent units fuel (e - 1)

/-- The decimal of at most `count` digits that is nearest to a magnitude among those
that read back as it, given the exponent of its leading digit. -/
def nearest? (units count : Nat) (leading : Int) : Option (Nat × Int) :=
  let exponent := leading - (count - 1 : Nat)
  let num := if 0 ≤ exponent then units else units * Nat.pow 10 (-exponent).toNat
  let den := if 0 ≤ exponent then Nat.pow 2 1074 * Nat.pow 10 exponent.toNat else Nat.pow 2 1074
  let low := num / den
  let order := if den < 2 * (num % den) then [low + 1, low] else [low, low + 1]
  (order.find? fun d => ofDecimal? d exponent = some units).map (·, exponent)

/-- The shortest decimal that reads back as a magnitude other than zero, as digits
and an exponent. -/
def shortest (units : Nat) : Nat × Int :=
  let leading := leadingExponent units 640 309
  ((List.range 17).findSome? fun n => nearest? units (n + 1) leading).getD (units, -1074)

/-- The text of a magnitude.  Up to 16 places before the point and up to five behind
it before the first digit are written out; other numbers have an exponent. -/
def render (units : Nat) : Text :=
  if units = 0 then "0.0"
  else
    let (n, exponent) := shortest units
    let digits := Text.decimal n
    let length : Int := digits.length
    let point := length + exponent
    if 0 ≤ exponent ∧ point ≤ 16 then
      digits ++ List.replicate exponent.toNat '0' ++ ".0"
    else if 0 < point ∧ point ≤ 16 then
      digits.take point.toNat ++ "." ++ digits.drop point.toNat
    else if -5 < point ∧ point ≤ 0 then
      "0." ++ List.replicate (-point).toNat '0' ++ digits
    else
      let mantissa := match digits with
        | d :: e :: rest => d :: '.' :: e :: rest
        | ds => ds
      mantissa ++ "e" ++ Text.signedDecimal (point - 1)

end ResourceBundles.Binary64
