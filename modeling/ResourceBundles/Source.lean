import ResourceBundles.Path

/-!
# Bundle sources

A bundle is addressed by a dotted name.  Its file lies below a source root, one
directory for every segment of the name but the last, with the extension
`properties`.
-/

namespace ResourceBundles

structure Source where
  name : Text
  path : Path
deriving DecidableEq

namespace Source

def extension : Text := "properties"

/-- The path of the bundle of a given name below a source root. -/
def pathOf (root : Path) (name : Text) : Path :=
  ((Dotted.segments name).foldl (fun p segment => p.join ⟨segment⟩) root).setExtension extension

/-- The name of the bundle in a file below a source root. -/
def nameOf? (root path : Path) : Option Text :=
  (path.relativeTo? root).bind fun relative =>
    match relative.withoutExtension.components with
    | [] => none
    | cs => some (['.'].intercalate (cs.map Path.Component.text))

def ofName (root : Path) (name : Text) : Source := ⟨name, pathOf root name⟩

def isBundleFile (path : Path) : Bool := path.extension? == some extension

end Source
end ResourceBundles
