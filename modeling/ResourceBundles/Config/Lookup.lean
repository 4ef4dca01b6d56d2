import ResourceBundles.Config.Reader
import ResourceBundles.FileSystem

/-!
# Looking a configuration up

The configuration of a directory lies in the directory itself or in one of its
ancestors.  The nearest file counts; the search ends at the first directory with
a repository marker.
-/

namespace ResourceBundles

inductive ConfigFault where
  | unreadable (error : FileError)
  | notUtf8
  | malformed (error : Json.ReadError)
  | badIgnore (entry : Text) (error : GlobError)
deriving DecidableEq

structure ConfigError where
  path : Path
  fault : ConfigFault
deriving DecidableEq

/-- What is said first about a configuration that is not JSON of the right form. -/
def ConfigError.parseHeadline (path : Path) : Text :=
  "Failed to parse config file: " ++ Text.quoted path.text

def badIgnoreMessage (entry : Text) (error : GlobError) : Text :=
  "Invalid glob pattern in 'ignores': \"" ++ entry ++ "\": " ++ error.message

def ConfigError.message (e : ConfigError) : Text :=
  match e.fault with
  | .unreadable error =>
    "Failed to read config file: " ++ Text.quoted e.path.text ++ ": " ++ error.message
  | .notUtf8 =>
    "Failed to read config file: " ++ Text.quoted e.path.text
      ++ ": stream did not contain valid UTF-8"
  | .malformed error => parseHeadline e.path ++ ": " ++ error.message
  | .badIgnore entry error => badIgnoreMessage entry error

namespace Config

def fileName : Text := ".bundlegenrc.json"

/-- The name of the entry that marks the top directory of a repository. -/
def repositoryMarker : Text := ".git"

/-- The configuration file that holds for the first of some directories, each the
parent of the one before it. -/
def findIn (fs : FileSystem) : List Path → Option Path
  | [] => none
  | dir :: rest =>
    if fs.isFile (dir.join ⟨fileName⟩) then some (dir.join ⟨fileName⟩)
    else if fs.hasEntry (dir.join ⟨repositoryMarker⟩) then none
    else findIn fs rest

def find? (fs : FileSystem) (start : Path) : Option Path := findIn fs start.ancestors

def ofFile (fs : FileSystem) (path : Path) : Except ConfigError Config :=
  match fs.read path with
  | .error e => .error ⟨path, .unreadable e⟩
  | .ok bytes =>
    match Utf8.decode bytes with
    | .error _ => .error ⟨path, .notUtf8⟩
    | .ok text =>
      match parse text with
      | .error e => .error ⟨path, .malformed e⟩
      | .ok config =>
        match badIgnore? config.ignores with
        | some (entry, e) => .error ⟨path, .badIgnore entry e⟩
        | none => .ok config

/-- The configuration that holds for a directory, and whether it comes from a
file. -/
def load (fs : FileSystem) (start : Path) : Except ConfigError (Config × Bool) :=
  match find? fs start with
  | none => .ok (standard, false)
  | some path => (ofFile fs path).map fun config => (config, true)

end Config
end ResourceBundles
