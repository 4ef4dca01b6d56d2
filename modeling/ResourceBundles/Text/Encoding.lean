import ResourceBundles.Text.Utf8

/-!
# Encodings

The character encodings in which bundle files are written.
-/

namespace ResourceBundles

inductive Encoding where
  | utf8
  | latin1
deriving DecidableEq

namespace Encoding

def all : List Encoding := [utf8, latin1]

def standard : Encoding := .utf8

/-- The name of an encoding in configuration files and on the command line. -/
def name : Encoding → Text
  | utf8 => "utf-8"
  | latin1 => "iso-8859-1"

def ofName? (ignoreCase : Bool) (t : Text) : Option Encoding :=
  all.find? fun e => Text.isName ignoreCase e.name t

/-- The text that some bytes stand for.  In Latin-1 every byte is a character. -/
def decode : Encoding → List UInt8 → Except Utf8Error Text
  | utf8, bytes => Utf8.decode bytes
  | latin1, bytes => .ok (Latin1.decode bytes)

end Encoding
end ResourceBundles
