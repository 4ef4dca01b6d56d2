import ResourceBundles.Config.Basic
import ResourceBundles.Json.Expect

/-!
# Reading a configuration

A configuration is an object whose members may stand in any order and may be left
out, or a list of its fields in their order.  A member of another name is passed
over; a field must not be given twice.
-/

namespace ResourceBundles

def Style.ofWord? (t : Text) : Option Style := Style.ofName? false t

/-- The words that `Style.ofWord?` knows. -/
def Style.words : List Text := Style.all.map Style.name

def Encoding.ofWord? (t : Text) : Option Encoding :=
  if t = "utf-8" ∨ t = "UTF-8" ∨ t = "utf8" then some .utf8
  else if t = "iso-8859-1" ∨ t = "ISO-8859-1" ∨ t = "latin1" then some .latin1
  else none

/-- The words that `Encoding.ofWord?` knows. -/
def Encoding.words : List Text :=
  ["UTF-8", "utf-8", "utf8", "ISO-8859-1", "iso-8859-1", "latin1"]

namespace Config

inductive Field where
  | sourceRoot
  | ignores
  | style
  | encoding
deriving DecidableEq

namespace Field

/-- The fields in the order in which a list gives them. -/
def all : List Field := [sourceRoot, ignores, style, encoding]

def key : Field → Text
  | sourceRoot => "sourceRoot"
  | ignores => "ignores"
  | style => "formatStyle"
  | encoding => "encoding"

end Field

structure Draft where
  sourceRoot : Option Text
  ignores : Option (List Text)
  style : Option Style
  encoding : Option Encoding

namespace Draft

def empty : Draft := ⟨none, none, none, none⟩

def has (d : Draft) : Field → Bool
  | .sourceRoot => d.sourceRoot.isSome
  | .ignores => d.ignores.isSome
  | .style => d.style.isSome
  | .encoding => d.encoding.isSome

/-- The configuration of the fields; the others have their standard values. -/
def complete (d : Draft) : Config :=
  { sourceRoot := d.sourceRoot.getD standard.sourceRoot
    ignores := d.ignores.getD standard.ignores
    style := d.style.getD standard.style
    encoding := d.encoding.getD standard.encoding }

end Draft

open Json

def readField (d : Draft) (f : Field) (k : Cursor) : Except ReadError (Draft × Cursor) :=
  match f with
  | .sourceRoot => do
    let (t, k) ← readString "a string" k
    return ({ d with sourceRoot := some t }, k)
  | .ignores => do
    let (ts, k) ← readStrings k
    return ({ d with ignores := some ts }, k)
  | .style => do
    let (s, k) ← readVariant Style.ofWord? Style.words k
    return ({ d with style := some s }, k)
  | .encoding => do
    let (e, k) ← readVariant Encoding.ofWord? Encoding.words k
    return ({ d with encoding := some e }, k)

/-- Read the members of an object, of which there are at most `fuel`. -/
def readMembers : Nat → Bool → Draft → Cursor → Except ReadError (Draft × Cursor)
  | 0, _, d, k => .ok (d, k)
  | fuel + 1, first, d, k => do
    let (more, k) ← nextMember first k
    if more then
      let (key, k) ← readChars k.advance
      match Field.all.find? fun f => f.key = key with
      | none =>
        let k ← skipValue (← readColon k)
        readMembers fuel false d k
      | some f =>
        if d.has f then k.skipBlanks.fail (.duplicateField key)
        else
          let (d, k) ← readField d f (← readColon k)
          readMembers fuel false d k
    else return (d, k.advance)

/-- Read the items of a list into fields, one after the other. -/
def readItems : List Field → Bool → Draft → Cursor → Except ReadError (Draft × Cursor)
  | [], _, d, k => do return (d, ← closeList k)
  | f :: fs, first, d, k => do
    let (more, k) ← nextItem first k
    if more then
      let (d, k) ← readField d f k
      readItems fs false d k
    else return (d, ← closeList k)

def readDraft (k : Cursor) : Except ReadError (Draft × Cursor) := do
  let (c, k) ← peekValue k
  if c = '\x7b' then readMembers (k.rest.length + 1) true Draft.empty k.advance
  else if c = '[' then readItems Field.all true Draft.empty k.advance
  else otherForm "struct Config" k

def parse (t : Text) : Except ReadError Config := do
  let (d, k) ← readDraft (Cursor.start t)
  finish k
  return d.complete

end Config
end ResourceBundles
