import ResourceBundles.FileSystem
import ResourceBundles.Glob
import ResourceBundles.Source

/-!
# Scanning a source root

The bundles of a source root are the bundle files that a walk through it comes
across, without the ignored ones.  An ignore entry with a star or a question mark
is a glob pattern for the full path or for the path below the root; any other
entry is a path below the root, and everything under it is ignored.
-/

namespace ResourceBundles

/-- Something that a scan passes over and that a user may want to know of. -/
inductive ScanWarning where
  | invalidIgnore (entry : Text) (error : GlobError)
  | inaccessible (path : Path) (error : FileError)
deriving DecidableEq

def ScanWarning.message : ScanWarning → Text
  | invalidIgnore entry error =>
    "Invalid ignore pattern '" ++ entry ++ "': " ++ error.message
  | inaccessible path error =>
    "Cannot access path: IO error for operation on " ++ path.text ++ ": " ++ error.message

structure Scan where
  sources : List Source
  skipped : Nat
  warnings : List ScanWarning
deriving DecidableEq

namespace Scan

def isGlob (entry : Text) : Bool := entry.contains '*' || entry.contains '?'

/-- Whether an entry of one of the two forms matches a path. -/
def ignoredBy (root path : Path) (entry : Text) : Bool :=
  if isGlob entry then
    match Glob.parse entry with
    | .ok tokens =>
      Glob.Token.matchAll tokens ((path.relativeTo? root).getD path).text
        || Glob.Token.matchAll tokens path.text
    | .error _ => false
  else path.startsWith (root.join ⟨entry⟩)

def isIgnored (root : Path) (ignores : List Text) (path : Path) : Bool :=
  ignores.any (ignoredBy root path)

/-- The glob patterns of an ignore list that are malformed. -/
def ignoreWarnings (ignores : List Text) : List ScanWarning :=
  ignores.filterMap fun entry =>
    if isGlob entry then
      match Glob.parse entry with
      | .ok _ => none
      | .error e => some (.invalidIgnore entry e)
    else none

def empty : Scan := ⟨[], 0, []⟩

def ofEntry (root : Path) (ignores : List Text) : WalkEntry → Scan
  | .inaccessible path error => { empty with skipped := 1, warnings := [.inaccessible path error] }
  | .directory _ => empty
  | .file path =>
    if isIgnored root ignores path || !Source.isBundleFile path then empty
    else
      match Source.nameOf? root path with
      | some name => { empty with sources := [⟨name, path⟩] }
      | none => { empty with skipped := 1 }

def ofWalk (root : Path) (ignores : List Text) (walk : List WalkEntry) : Scan :=
  let parts := walk.map (ofEntry root ignores)
  { sources := (parts.flatMap Scan.sources).mergeSort fun a b => a.path.le b.path
    skipped := (parts.map Scan.skipped).foldr (· + ·) 0
    warnings := ignoreWarnings ignores ++ parts.flatMap Scan.warnings }

end Scan
end ResourceBundles
