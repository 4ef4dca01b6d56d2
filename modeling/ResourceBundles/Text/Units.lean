import ResourceBundles.Text.Basic

/-!
# UTF-16 units

Characters as sequences of 16-bit units.  A character above `U+FFFF` is a high
surrogate followed by a low one.  Every sequence of units can be decoded: a
surrogate without its partner becomes `U+FFFD`.
-/

namespace ResourceBundles.Utf16

def isHigh (u : UInt16) : Bool := 0xD800 ≤ u && u < 0xDC00

def isLow (u : UInt16) : Bool := 0xDC00 ≤ u && u < 0xE000

def ofPair (high low : UInt16) : Char :=
  Char.ofNat (0x10000 + (high.toNat - 0xD800) * 0x400 + (low.toNat - 0xDC00))

def ofUnit (u : UInt16) : Char :=
  if isHigh u || isLow u then '\uFFFD' else Char.ofNat u.toNat

def decode : List UInt16 → Text
  | [] => []
  | [u] => [ofUnit u]
  | u :: v :: rest =>
    if isHigh u && isLow v then ofPair u v :: decode rest
    else ofUnit u :: decode (v :: rest)

def units (c : Char) : List UInt16 :=
  if c.toNat < 0x10000 then [UInt16.ofNat c.toNat]
  else
    [UInt16.ofNat (0xD800 + (c.toNat - 0x10000) / 0x400),
      UInt16.ofNat (0xDC00 + (c.toNat - 0x10000) % 0x400)]

def encode (t : Text) : List UInt16 := t.flatMap units

@[simp] theorem decode_nil : decode [] = [] := rfl

end ResourceBundles.Utf16
