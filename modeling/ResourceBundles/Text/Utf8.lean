import ResourceBundles.Text.Basic

/-!
# UTF-8

Texts as sequences of bytes.  A sequence that is no UTF-8 is refused at its first
faulty byte, together with the number of bytes there that belong to no character;
where the sequence ends inside a character that number is unknown.
-/

namespace ResourceBundles

/-- Where and how a sequence of bytes stops being UTF-8. -/
structure Utf8Error where
  index : Nat
  /-- The number of faulty bytes, or `none` if the last character is cut off. -/
  length : Option Nat
deriving DecidableEq

def Utf8Error.message (e : Utf8Error) : Text :=
  match e.length with
  | some n =>
    "invalid utf-8 sequence of " ++ Text.decimal n ++ " bytes from index "
      ++ Text.decimal e.index
  | none => "incomplete utf-8 byte sequence from index " ++ Text.decimal e.index

namespace Utf8

/-- Whether a byte may follow the second byte of a character. -/
def isTail (b : UInt8) : Bool := 0x80 ≤ b && b ≤ 0xBF

/-- Whether a byte may follow a given first byte.  The bounds leave out overlong
forms, surrogates and numbers above the last character. -/
def isSecond (first b : UInt8) : Bool :=
  if first = 0xE0 then 0xA0 ≤ b && b ≤ 0xBF
  else if first = 0xED then 0x80 ≤ b && b ≤ 0x9F
  else if first = 0xF0 then 0x90 ≤ b && b ≤ 0xBF
  else if first = 0xF4 then 0x80 ≤ b && b ≤ 0x8F
  else isTail b

/-- The number of bytes of a character that starts with a given byte, or 0 if no
character does. -/
def width (first : UInt8) : Nat :=
  if first < 0x80 then 1
  else if first < 0xC2 then 0
  else if first < 0xE0 then 2
  else if first < 0xF0 then 3
  else if first < 0xF5 then 4
  else 0

def tailBits (b : UInt8) : Nat := b.toNat - 0x80

/-- The character that starts with a given byte, and the bytes behind it; on
failure the number of faulty bytes. -/
def readChar (first : UInt8) (t : List UInt8) : Except (Option Nat) (Char × List UInt8) :=
  match width first, t with
  | 1, t => .ok (Char.ofNat first.toNat, t)
  | 2, [] => .error none
  | 2, b :: t =>
    if isSecond first b then
      .ok (Char.ofNat ((first.toNat - 0xC0) * 0x40 + tailBits b), t)
    else .error (some 1)
  | 3, [] => .error none
  | 3, b :: t =>
    if isSecond first b then
      match t with
      | [] => .error none
      | c :: t =>
        if isTail c then
          .ok (Char.ofNat
            ((first.toNat - 0xE0) * 0x1000 + tailBits b * 0x40 + tailBits c), t)
        else .error (some 2)
    else .error (some 1)
  | 4, [] => .error none
  | 4, b :: t =>
    if isSecond first b then
      match t with
      | [] => .error none
      | c :: t =>
        if isTail c then
          match t with
          | [] => .error none
          | d :: t =>
            if isTail d then
              .ok (Char.ofNat ((first.toNat - 0xF0) * 0x40000 + tailBits b * 0x1000
                + tailBits c * 0x40 + tailBits d), t)
            else .error (some 3)
        else .error (some 2)
    else .error (some 1)
  | _, _ => .error (some 1)

theorem length_readChar_le {first : UInt8} {t rest : List UInt8} {c : Char}
    (h : readChar first t = .ok (c, rest)) : rest.length ≤ t.length := by
  unfold readChar at h
  grind

def decodeFrom (index : Nat) : List UInt8 → Except Utf8Error Text
  | [] => .ok []
  | first :: t =>
    match h : readChar first t with
    | .error length => .error ⟨index, length⟩
    | .ok (c, rest) =>
      have : rest.length ≤ t.length := length_readChar_le h
      (decodeFrom (index + width first) rest).map (c :: ·)
termination_by t => t.length
decreasing_by simp; omega

def decode (bytes : List UInt8) : Except Utf8Error Text := decodeFrom 0 bytes

def encode (t : Text) : List UInt8 := t.flatMap String.utf8EncodeChar

end Utf8

namespace Latin1

/-- The text whose characters have the numbers of the bytes. -/
def decode (bytes : List UInt8) : Text := bytes.map fun b => Char.ofNat b.toNat

end Latin1
end ResourceBundles
