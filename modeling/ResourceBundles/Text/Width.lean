import ResourceBundles.Text.Emoji

/-!
# Width of texts

The number of columns that a text takes on a terminal.  Most characters take one
column; ideographs and pictures take two, and marks take none.  In some sequences a
character takes fewer columns than it does alone: a line end of two characters, a
picture made of several pictures, and the ligatures of some scripts.  A text is read
from its end, since what stands behind a character decides about its width.
-/

namespace ResourceBundles.Text

/-- Characters that are not shown, such as joiners and selectors.  The leading Hangul
filler is not among them, since it forms a syllable with what follows. -/
def ignorableRanges : List (Nat × Nat) := [
  (0xAD, 0xAD), (0x34F, 0x34F), (0x61C, 0x61C), (0x1160, 0x1160), (0x17B4, 0x17B5),
  (0x180B, 0x180F), (0x200B, 0x200F), (0x202A, 0x202E), (0x2060, 0x206F), (0x3164, 0x3164),
  (0xFE00, 0xFE0F), (0xFEFF, 0xFEFF), (0xFFA0, 0xFFA0), (0xFFF0, 0xFFF8), (0x1BCA0, 0x1BCA3),
  (0x1D173, 0x1D17A), (0xE0000, 0xE0FFF)]

/-- Further characters without a column: vowels and final consonants of Hangul, number
marks that span what follows, letters that are written over the next one, and the caret
of Devanagari. -/
def zeroWidthRanges : List (Nat × Nat) := [
  (0x605, 0x605), (0x70F, 0x70F), (0x890, 0x891), (0x8E2, 0x8E2), (0xD4E, 0xD4E),
  (0x1160, 0x11FF), (0xA8FA, 0xA8FA), (0xD7B0, 0xD7C6), (0xD7CB, 0xD7FB), (0x111C2, 0x111C3),
  (0x113D1, 0x113D1), (0x1193F, 0x1193F), (0x11941, 0x11941), (0x11A3A, 0x11A3A),
  (0x11A84, 0x11A89), (0x11D46, 0x11D46), (0x11F02, 0x11F02)]

def wideRanges : List (Nat × Nat) := [
  (0x1100, 0x115F), (0x2329, 0x232A), (0x2630, 0x2637), (0x268A, 0x268F), (0x2E80, 0x2E99),
  (0x2E9B, 0x2EF3), (0x2F00, 0x2FD5), (0x2FF0, 0x3029), (0x3030, 0x303E), (0x3041, 0x3096),
  (0x309B, 0x30FF), (0x3105, 0x312F), (0x3131, 0x3163), (0x3165, 0x318E), (0x3190, 0x31E5),
  (0x31EF, 0x321E), (0x3220, 0x3247), (0x3250, 0xA48C), (0xA490, 0xA4C6), (0xA960, 0xA97C),
  (0xAC00, 0xD7A3), (0xF900, 0xFAFF), (0xFE10, 0xFE19), (0xFE30, 0xFE52), (0xFE54, 0xFE66),
  (0xFE68, 0xFE6B), (0xFF01, 0xFF60), (0xFFE0, 0xFFE6), (0x16FE0, 0x16FE3), (0x16FF2, 0x16FF6),
  (0x17000, 0x18CD5), (0x18CFF, 0x18D1E), (0x18D80, 0x18DF2), (0x1AFF0, 0x1AFF3),
  (0x1AFF5, 0x1AFFB), (0x1AFFD, 0x1AFFE), (0x1B000, 0x1B122), (0x1B132, 0x1B132),
  (0x1B150, 0x1B152), (0x1B155, 0x1B155), (0x1B164, 0x1B167), (0x1B170, 0x1B2FB),
  (0x1D300, 0x1D356), (0x1D360, 0x1D376), (0x1F200, 0x1F200), (0x1F202, 0x1F202),
  (0x1F210, 0x1F219), (0x1F21B, 0x1F22E), (0x1F230, 0x1F231), (0x1F237, 0x1F237),
  (0x1F23B, 0x1F23B), (0x1F240, 0x1F248), (0x1F260, 0x1F265), (0x20000, 0x2FFFD),
  (0x30000, 0x3FFFD)]

/-- The joiner of Tifinagh consonants, which is shown where it joins nothing. -/
def tifinaghJoiner : Char := '\u2D7F'

def isZeroWidth (c : Char) : Bool :=
  c != tifinaghJoiner &&
    (isGraphemeExtend c || inRanges ignorableRanges c || inRanges zeroWidthRanges c)

/-- Whether a character takes two columns.  One is a Khmer letter that stands for
two. -/
def isWide (c : Char) : Bool :=
  isEmoji c || isModifier c || inRanges wideRanges c || c == '\u17A4'

/-- The number of columns of a character alone.  A Khmer sign that abbreviates three
letters has three. -/
def columns (c : Char) : Nat :=
  if c.toNat ≤ 0xA0 then 1
  else if isZeroWidth c then 0
  else if c = '\u17D8' then 3
  else if isWide c then 2
  else 1

namespace Width

def joiner : Char := '\u200D'

/-- What the characters behind a place begin with, as far as it matters for the
character at the place. -/
inductive Part where
  | plain
  | lineFeed
  /-- A skin tone. -/
  | modifier
  /-- One regional indicator. -/
  | indicator
  /-- More than one regional indicator. -/
  | indicators
  | emoji
  /-- A joiner before an emoji. -/
  | joinedEmoji
  /-- The frame of a key before a joined emoji. -/
  | joinedKeycap
  /-- Regional indicators before a joined emoji. -/
  | joinedIndicators (count : Nat)
  /-- Tag characters before a joined emoji. -/
  | joinedTags (count : Nat)
  | alef
  | lamed
  /-- A Khmer letter that has a form below the line. -/
  | khmerLetter
  | bugineseYa
  /-- The Buginese vowel sign I before a joined YA. -/
  | bugineseVowelYa
  | tifinaghLetter
  /-- A Tifinagh letter behind the joiner of its script. -/
  | joinedTifinaghLetter
  | lisuTone
  | orkhonI
deriving DecidableEq

namespace Part

/-- Whether the part belongs to an emoji that is to be joined. -/
def isJoinable : Part → Bool
  | joinedEmoji | joinedKeycap => true
  | _ => false

def isLetter : Part → Bool
  | alef | lamed | khmerLetter | bugineseYa | bugineseVowelYa | tifinaghLetter
  | joinedTifinaghLetter | lisuTone | orkhonI => true
  | _ => false

/-- What a character alone is for the character before it. -/
def ofChar (c : Char) : Part :=
  if isEmoji c then emoji
  else if isModifier c then modifier
  else if isRegionalIndicator c then indicator
  else if inRanges [(0x622, 0x623), (0x625, 0x625), (0x627, 0x627), (0x671, 0x673),
      (0x675, 0x675), (0x773, 0x774), (0x870, 0x882)] c then alef
  else if c = '\u05DC' then lamed
  else if inRanges [(0x1780, 0x1782), (0x1784, 0x1787), (0x1789, 0x178C), (0x178E, 0x1793),
      (0x1795, 0x1798), (0x179B, 0x179D), (0x17A0, 0x17A0), (0x17A2, 0x17A2),
      (0x17A7, 0x17A7), (0x17AB, 0x17AC), (0x17AF, 0x17AF)] c then khmerLetter
  else if c = '\u1A10' then bugineseYa
  else if inRanges [(0x2D31, 0x2D65), (0x2D6F, 0x2D6F)] c then tifinaghLetter
  else if inRanges [(0xA4FC, 0xA4FD)] c then lisuTone
  else if inRanges [(0x10C03, 0x10C03)] c then orkhonI
  else plain

end Part

inductive Selector where
  | sign
  | picture
deriving DecidableEq

def Selector.ofChar? (c : Char) : Option Selector :=
  if c = '\uFE0E' then some .sign
  else if c = '\uFE0F' then some .picture
  else none

structure Tail where
  part : Part
  joined : Bool
  selector : Option Selector
deriving DecidableEq

namespace Tail

def of (part : Part) : Tail := ⟨part, false, none⟩

def plain : Tail := of .plain

/-- A tail whose selector concerns nothing.  A part that is no letter is out of reach
then. -/
def settle (t : Tail) : Tail :=
  if t.selector = none then t
  else if t.part.isLetter then { t with selector := none }
  else plain

def select (t : Tail) (s : Selector) : Tail :=
  let t := t.settle
  if t.part.isLetter || (s = .picture && t.part.isJoinable) then { t with selector := some s }
  else { plain with selector := some s }

/-- The columns that a character adds where it forms a sequence with a tail, and the
tail that the sequence is. -/
def sequence? (t : Tail) (c : Char) : Option (Int × Tail) :=
  let when (b : Bool) (n : Int) (p : Part) : Option (Int × Tail) :=
    if b then some (n, of p) else none
  match t.part with
  | .plain | .lineFeed => none
  | .modifier => (when (takesModifier c) 0 .emoji).or (when (c = joiner) 0 .joinedEmoji)
  | .emoji => when (c = joiner) 0 .joinedEmoji
  | .indicator => when (isRegionalIndicator c) 1 .indicators
  | .indicators =>
    (when (isRegionalIndicator c) 1 .indicators).or (when (c = joiner) 0 .joinedEmoji)
  | .joinedEmoji =>
    (when (c = '\u20E3') 0 .joinedKeycap).or <|
    (when (isRegionalIndicator c) 1 (.joinedIndicators 1)).or <|
    (when (isModifier c) 0 .modifier).or <|
    (when (c.toNat = 0xE007F) 0 (.joinedTags 0)).or <|
    when (isEmoji c) 0 .emoji
  | .joinedKeycap => none
  | .joinedIndicators n =>
    (when (isRegionalIndicator c) (if n % 2 = 1 then -1 else 3) (.joinedIndicators (n + 1))).or
      (when (c = joiner && 2 ≤ n) 0 .joinedEmoji)
  | .joinedTags n =>
    (when (inRanges [(0xE0030, 0xE0039), (0xE0061, 0xE007A)] c) 0 (.joinedTags (n + 1))).or
      (when (c.toNat = 0x1F3F4 && 3 ≤ n && n ≤ 6) 0 .emoji)
  | .alef =>
    (when (inRanges [(0x644, 0x644), (0x6B5, 0x6B8), (0x76A, 0x76A), (0x8A6, 0x8A6),
      (0x8C7, 0x8C7)] c) 0 .plain).or
      (when (isZeroWidth c && !inRanges [(0x605, 0x605), (0x890, 0x891), (0x8E2, 0x8E2),
        (0x180E, 0x180E), (0x200C, 0x200D), (0x2066, 0x2069)] c) 0 .alef)
  | .lamed => when (t.joined && c = '\u05D0') 0 .plain
  | .khmerLetter => when (c = '\u17D2') (-1) .plain
  | .bugineseYa => when (t.joined && c = '\u1A17') 0 .bugineseVowelYa
  | .bugineseVowelYa => when (c = '\u1A15') 0 .plain
  | .tifinaghLetter =>
    (when (c = tifinaghJoiner) 1 .joinedTifinaghLetter).or
      (when (t.joined && Part.ofChar c = .tifinaghLetter) 0 .plain)
  | .joinedTifinaghLetter => when (Part.ofChar c = .tifinaghLetter) (-1) .plain
  | .lisuTone => when (inRanges [(0xA4F8, 0xA4FB)] c) 0 .plain
  | .orkhonI => when (t.joined && c.toNat = 0x10C32) 0 .plain

/-- Whether a character may stand inside a ligature of letters without a trace:
a mark that is not shown. -/
def isTransparent (c : Char) : Bool :=
  inRanges [(0x34F, 0x34F), (0x17B4, 0x17B5), (0x180B, 0x180D), (0x180F, 0x180F),
    (0xFE00, 0xFE0F), (0xE0100, 0xE01EF)] c

/-- The columns that a character adds before a tail, and the tail for the character
before it. -/
def step (c : Char) (t : Tail) : Int × Tail :=
  if t.selector = some .picture ∧ takesEmojiStyle c then
    (if t.part.isJoinable then 0 else 2, of .emoji)
  else if c.toNat ≤ 0xA0 then
    if c = '\r' ∧ t.part = .lineFeed then (0, plain)
    else (1, of (if c = '\n' then .lineFeed else .plain))
  else
    match Selector.ofChar? c with
    | some s => (0, t.select s)
    | none =>
      if t.selector = some .sign ∧ takesTextStyle c then (1, plain)
      else
        let t := t.settle
        if t.part.isLetter && t.part != .alef && (c == joiner || isTransparent c) then
          (0, { t with joined := t.joined || c == joiner })
        else (t.sequence? c).getD (columns c, of (Part.ofChar c))

end Tail

/-- The number of columns of a text, and what it is for a character before it. -/
def measure : Text → Int × Tail
  | [] => (0, .plain)
  | c :: t =>
    let (n, rest) := measure t
    let (m, tail) := Tail.step c rest
    (m + n, tail)

end Width

def width (t : Text) : Nat := (Width.measure t).1.toNat

end ResourceBundles.Text
