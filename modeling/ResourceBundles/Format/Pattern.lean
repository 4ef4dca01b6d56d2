import ResourceBundles.Format.Basic
import ResourceBundles.Format.Choice
import ResourceBundles.Format.Conversion

/-!
# Message patterns

A pattern is text with placeholders `{index,type,style}`; type and style may be
missing.  Single quotes turn braces into ordinary characters: outside a
placeholder two quotes in a row are a quote character, and one alone opens or
closes quoted text; inside a placeholder every quote opens or closes.  A
placeholder ends at the brace that closes it, so its style may hold patterns.
A closing brace outside every placeholder is text.
-/

namespace ResourceBundles

inductive FormatType where
  | plain
  | number
  | date
  | time
  | choice
deriving DecidableEq

namespace FormatType

def all : List FormatType := [plain, number, date, time, choice]

def keyword : FormatType → Text
  | plain => ""
  | number => "number"
  | date => "date"
  | time => "time"
  | choice => "choice"

/-- The format type that a text names in any case and with any white space
around it. -/
def parse? (t : Text) : Option FormatType :=
  all.find? fun f => f.keyword = Text.asciiLower (Text.trim t)

end FormatType

inductive PatternError where
  /-- The placeholder opened at a byte offset has no end. -/
  | unmatchedBraces (offset : Nat)
  /-- The index of a placeholder is not an integer. -/
  | invalidIndex (text : Text)
  | negativeIndex (index : Int)
  | indexTooLarge (index : Int)
  | unknownFormatType (name : Text)
  | invalidChoice (style : Text)
deriving DecidableEq

def PatternError.message : PatternError → Text
  | unmatchedBraces offset =>
    "unmatched braces in the pattern (argument opened at offset " ++ Text.decimal offset ++ ")"
  | invalidIndex text => "can't parse argument number: \"" ++ text ++ "\""
  | negativeIndex index => "negative argument number: " ++ Text.signedDecimal index
  | indexTooLarge index => "argument number too large: " ++ Text.signedDecimal index
  | unknownFormatType name => "unknown format type: \"" ++ name ++ "\""
  | invalidChoice style => "invalid choice pattern: \"" ++ style ++ "\""

structure Placeholder where
  index : Nat
  formatType : FormatType
  style : Text
deriving DecidableEq

namespace Placeholder

/-- The three parts of a placeholder as they are written. -/
structure Segments where
  index : Text
  formatType : Text
  style : Text
deriving DecidableEq

/-- Where a character of a placeholder belongs.  Spaces between the first comma
and the format type belong nowhere. -/
inductive Part where
  | index
  | beforeType
  | formatType
  | style
deriving DecidableEq

def Part.afterComma : Part → Part
  | .index => .beforeType
  | _ => .style

/-- The part of the character behind one that was kept. -/
def Part.afterChar : Part → Part
  | .beforeType => .formatType
  | p => p

def Segments.push (s : Segments) (p : Part) (c : Char) : Segments :=
  match p with
  | .index => { s with index := c :: s.index }
  | .beforeType | .formatType => { s with formatType := c :: s.formatType }
  | .style => { s with style := c :: s.style }

/-- A placeholder's parts, the number of bytes behind its opening brace that it
takes, and the text behind it. -/
structure Cut where
  segments : Segments
  length : Nat
  rest : Text
deriving DecidableEq

def Cut.stop (rest : Text) : Cut := ⟨⟨[], [], []⟩, 1, rest⟩

/-- The placeholder has one more character in front, which belongs to a part. -/
def Cut.push (k : Cut) (p : Part) (c : Char) : Cut :=
  { k with segments := k.segments.push p c, length := c.utf8Size + k.length }

/-- The placeholder has one more character in front, which belongs to no part. -/
def Cut.skip (k : Cut) (c : Char) : Cut := { k with length := c.utf8Size + k.length }

/-- Cut the rest of a placeholder off a text, given the part that comes next, the
number of open braces inside the placeholder, and whether the next character is
quoted.  The first two commas outside quotes divide the parts. -/
def cut (p : Part) (depth : Nat) (quoted : Bool) : Text → Option Cut
  | [] => none
  | c :: t =>
    if quoted then (cut p.afterChar depth (c != '\'') t).map (·.push p c)
    else if c = ',' ∧ p ≠ .style then (cut p.afterComma depth false t).map (·.skip c)
    else if c = '{' then (cut p.afterChar (depth + 1) false t).map (·.push p c)
    else if c = '}' then
      match depth with
      | 0 => some (.stop t)
      | d + 1 => (cut p.afterChar d false t).map (·.push p c)
    else if c = ' ' ∧ p = .beforeType then (cut p depth false t).map (·.skip c)
    else (cut p.afterChar depth (c == '\'') t).map (·.push p c)

theorem rest_lt_of_cut {t : Text} {p : Part} {depth : Nat} {quoted : Bool} {k : Cut}
    (h : cut p depth quoted t = some k) : k.rest.length < t.length := by
  induction t generalizing p depth quoted k with
  | nil => simp [cut] at h
  | cons c t ih =>
    have hm : ∀ {p' : Part} {d : Nat} {q : Bool} (f : Cut → Cut),
        (∀ k', (f k').rest = k'.rest) → (cut p' d q t).map f = some k →
          k.rest.length < (c :: t).length := by
      intro p' d q f hf hk
      obtain ⟨k', hk', rfl⟩ := Option.map_eq_some_iff.mp hk
      rw [hf]
      exact Nat.lt_succ_of_lt (ih hk')
    unfold cut at h
    split at h
    · exact hm (·.push p c) (fun _ => rfl) h
    split at h
    · exact hm (·.skip c) (fun _ => rfl) h
    split at h
    · exact hm (·.push p c) (fun _ => rfl) h
    split at h
    · split at h
      · obtain rfl := Option.some.inj h
        exact Nat.lt_succ_self _
      · exact hm (·.push p c) (fun _ => rfl) h
    split at h
    · exact hm (·.skip c) (fun _ => rfl) h
    · exact hm (·.push p c) (fun _ => rfl) h

/-- The index of a placeholder.  Numbers of more than 63 bits are not read. -/
def readIndex (t : Text) : Except PatternError Nat :=
  match Text.integer? t with
  | none => .error (.invalidIndex t)
  | some i =>
    if i < Int64.minValue.toInt ∨ Int64.maxValue.toInt < i then .error (.invalidIndex t)
    else if i < 0 then .error (.negativeIndex i)
    else if positionLimit ≤ i.toNat then .error (.indexTooLarge i)
    else .ok i.toNat

/-- The placeholder of given parts.  The index is judged first, then the format
type, and the style only where the type is `choice`. -/
def ofSegments (s : Segments) : Except PatternError Placeholder :=
  match readIndex s.index with
  | .error e => .error e
  | .ok index =>
    match FormatType.parse? s.formatType with
    | none => .error (.unknownFormatType s.formatType)
    | some formatType =>
      if formatType = .choice ∧ Choice.accepts s.style = false then
        .error (.invalidChoice s.style)
      else .ok { index := index, formatType := formatType, style := s.style }

end Placeholder

namespace Pattern

/-- The placeholders of the rest of a pattern, given the offset of the rest and
whether its first character is quoted. -/
def placeholdersFrom (offset : Nat) (quoted : Bool) :
    Text → Except PatternError (List Placeholder)
  | [] => .ok []
  | '\'' :: '\'' :: t => placeholdersFrom (offset + 2) quoted t
  | '\'' :: t => placeholdersFrom (offset + 1) (!quoted) t
  | c :: t =>
    if c = '{' ∧ quoted = false then
      match h : Placeholder.cut .index 0 false t with
      | none => .error (.unmatchedBraces offset)
      | some k =>
        match Placeholder.ofSegments k.segments with
        | .error e => .error e
        | .ok a =>
          have : k.rest.length < t.length := Placeholder.rest_lt_of_cut h
          (placeholdersFrom (offset + 1 + k.length) false k.rest).map (a :: ·)
    else placeholdersFrom (offset + c.utf8Size) quoted t
termination_by t => t.length

def placeholders (t : Text) : Except PatternError (List Placeholder) :=
  placeholdersFrom 0 false t

/-- One more than the largest index of some placeholders. -/
def arity (ps : List Placeholder) : Nat := (ps.map (·.index + 1)).foldl max 0

/-- The type sets of the argument positions of a pattern.  Placeholders carry a
position alone, so every position accepts any value. -/
def resolve (t : Text) : Except PatternError (List TypeSet) :=
  (placeholders t).map fun ps => List.replicate (arity ps) .universal

end Pattern

/-- The type sets of the argument positions of a format of a given style. -/
def Style.resolve (s : Style) (t : Text) : Except PatternError (List TypeSet) :=
  match s with
  | .conversion => .ok (Conversion.resolve t)
  | .pattern => Pattern.resolve t

end ResourceBundles
