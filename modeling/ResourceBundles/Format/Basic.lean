import ResourceBundles.Argument.TypeSet

/-!
# Format styles

The values of a bundle are formats, and all of them follow one of two styles:
conversions as in `%2$d`, or message patterns as in `hello {0}`.
-/

namespace ResourceBundles

/-- The convention that the formats of a bundle follow. -/
inductive Style where
  | conversion
  | pattern
deriving DecidableEq

namespace Style

def all : List Style := [conversion, pattern]

def standard : Style := .conversion

/-- The name of a style in configuration files and on the command line. -/
def name : Style → Text
  | conversion => "conversion"
  | pattern => "pattern"

def ofName? (ignoreCase : Bool) (t : Text) : Option Style :=
  all.find? fun s => Text.isName ignoreCase s.name t

def unknownMessage (t : Text) : Text := "invalid variant: " ++ t

end Style

/-- Explicit argument positions, counted from 0, stay below this number. -/
def positionLimit : Nat := 10000

end ResourceBundles
