import ResourceBundles.Format.Basic
import ResourceBundles.Glob
import ResourceBundles.Json.Basic
import ResourceBundles.Text.Encoding

/-!
# Configurations

The settings of a project: where its bundles lie, which of them to ignore, and how
they are written.
-/

namespace ResourceBundles

structure Config where
  /-- The directory that dotted bundle names are read against. -/
  sourceRoot : Text
  ignores : List Text
  style : Style
  encoding : Encoding
deriving DecidableEq

namespace Config

def standard : Config :=
  { sourceRoot := "./src/main/resources"
    ignores := []
    style := .standard
    encoding := .standard }

def toJson (c : Config) : Json :=
  .object [("sourceRoot", .string c.sourceRoot), ("ignores", .array (c.ignores.map .string)),
    ("formatStyle", .string c.style.name), ("encoding", .string c.encoding.name)]

/-- The first entry of an ignore list that is no glob pattern. -/
def badIgnore? (ignores : List Text) : Option (Text × GlobError) :=
  ignores.findSome? fun entry =>
    match Glob.parse entry with
    | .ok _ => none
    | .error e => some (entry, e)

end Config
end ResourceBundles
