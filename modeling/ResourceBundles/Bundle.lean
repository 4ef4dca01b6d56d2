import ResourceBundles.Text.Basic

/-!
# Bundles

The entries of one bundle in the order in which their keys were first defined.
A later definition of a key replaces its value and its line in place.
-/

namespace ResourceBundles

/-- A key with its value and the line of its last definition. -/
structure Entry where
  key : Text
  value : Text
  line : Nat
deriving DecidableEq

/-- Entries with distinct keys, and the position of each key among them. -/
structure Bundle where
  entries : List Entry
  positions : List (Text × Nat)
deriving DecidableEq

namespace Bundle

def empty : Bundle := ⟨[], []⟩

def position? (b : Bundle) (key : Text) : Option Nat := b.positions.lookup key

def get? (b : Bundle) (key : Text) : Option Entry :=
  (b.position? key).bind fun i => b.entries[i]?

def contains (b : Bundle) (key : Text) : Bool := (b.position? key).isSome

def insert (b : Bundle) (e : Entry) : Bundle :=
  match b.position? e.key with
  | some i =>
    { b with entries := b.entries.modify i fun old =>
        { old with value := e.value, line := e.line } }
  | none =>
    { entries := b.entries ++ [e], positions := b.positions ++ [(e.key, b.entries.length)] }

/-- Define a key, and tell the value that it had before. -/
def define (b : Bundle) (e : Entry) : Option Text × Bundle :=
  ((b.get? e.key).map Entry.value, b.insert e)

def ofEntries (es : List Entry) : Bundle := es.foldl insert empty

def pairs (b : Bundle) : List (Text × Text) := b.entries.map fun e => (e.key, e.value)

def size (b : Bundle) : Nat := b.entries.length

@[simp] theorem ofEntries_nil : ofEntries [] = empty := rfl

theorem ofEntries_append (es fs : List Entry) :
    ofEntries (es ++ fs) = fs.foldl insert (ofEntries es) := by
  simp [ofEntries]

theorem ofEntries_concat (es : List Entry) (e : Entry) :
    ofEntries (es ++ [e]) = (ofEntries es).insert e := by
  simp [ofEntries]

end Bundle
end ResourceBundles
