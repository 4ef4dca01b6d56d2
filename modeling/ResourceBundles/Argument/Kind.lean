import ResourceBundles.Text.Basic

/-!
# Kinds of arguments

A kind stands for a family of values that one position of a format accepts.
`universal` is a kind of its own: it is not above the others, and it shares no
value family with them.
-/

namespace ResourceBundles

inductive Kind where
  | boolean
  | character
  | integer
  | floating
  | dateTime
  | universal
deriving DecidableEq

namespace Kind

/-- Every kind, in the order in which sets of kinds are listed. -/
def all : List Kind := [boolean, character, integer, floating, dateTime, universal]

theorem mem_all (k : Kind) : k ∈ all := by cases k <;> decide

def rank : Kind → Nat
  | boolean => 0
  | character => 1
  | integer => 2
  | floating => 3
  | dateTime => 4
  | universal => 5

theorem all_pairwise_rank : all.Pairwise (·.rank < ·.rank) := by decide

def name : Kind → Text
  | boolean => "boolean"
  | character => "character"
  | integer => "integer"
  | floating => "floating"
  | dateTime => "date-time"
  | universal => "universal"

def label : Kind → Text
  | boolean => "boolean"
  | character => "char"
  | integer => "integer"
  | floating => "float"
  | dateTime => "date-time"
  | universal => "any"

def ofName? (t : Text) : Option Kind := all.find? fun k => k.name = t

end Kind
end ResourceBundles
