import ResourceBundles.Bundle
import ResourceBundles.Properties.Escape
import ResourceBundles.Properties.Split

/-!
# Reading a properties text

Every logical line defines one key.  Reading stops at the first line with a
malformed unit escape; within a line the key is read before the value.
-/

namespace ResourceBundles.Properties

inductive Side where
  | key
  | value
deriving DecidableEq

/-- A malformed unit escape on one side of the entry that starts on a line. -/
structure EntryError where
  side : Side
  line : Nat
  found : Text
deriving DecidableEq

def EntryError.message (e : EntryError) : Text :=
  let side : Text := match e.side with
    | .key => "Invalid key"
    | .value => "Invalid value"
  side ++ " on line " ++ Text.decimal e.line ++ ": Malformed \\uxxxx encoding: \\u" ++ e.found

def readSide (side : Side) (line : Nat) (raw : Text) : Except EntryError Text :=
  match unescape raw with
  | .ok t => .ok t
  | .error found => .error ⟨side, line, found⟩

def readEntry (line : LogicalLine) : Except EntryError Entry :=
  match readSide .key line.number (splitEntry line.text).1 with
  | .error e => .error e
  | .ok key =>
    match readSide .value line.number (splitEntry line.text).2 with
    | .error e => .error e
    | .ok value => .ok { key := key, value := value, line := line.number }

/-- The entries of some logical lines in order, keys defined twice included. -/
def readEntries : List LogicalLine → Except EntryError (List Entry)
  | [] => .ok []
  | line :: rest =>
    match readEntry line with
    | .error e => .error e
    | .ok entry => (readEntries rest).map (entry :: ·)

def parse (t : Text) : Except EntryError Bundle :=
  (readEntries (logicalLines t)).map Bundle.ofEntries

end ResourceBundles.Properties
