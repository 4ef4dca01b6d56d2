import ResourceBundles.Path
import ResourceBundles.Text.Utf8

/-!
# File systems

A file system is a value: files and directories at their locations below the
root, and a working directory, against which relative paths are read.
-/

namespace ResourceBundles

inductive FileError where
  | notFound
  | notDirectory
  | isDirectory
  | nameTooLong
  /-- The path holds a NUL character. -/
  | invalidName
deriving DecidableEq

def FileError.message : FileError → Text
  | notFound => "No such file or directory (os error 2)"
  | notDirectory => "Not a directory (os error 20)"
  | isDirectory => "Is a directory (os error 21)"
  | nameTooLong => "File name too long (os error 36)"
  | invalidName => "file name contained an unexpected NUL byte"

abbrev Location := List Text

inductive Content where
  | file (bytes : List UInt8)
  | directory
deriving DecidableEq

/-- Files and directories.  The root is a directory that is not listed. -/
structure FileSystem where
  current : Location
  entries : List (Location × Content)
deriving DecidableEq

inductive WalkEntry where
  | file (path : Path)
  | directory (path : Path)
  | inaccessible (path : Path) (error : FileError)
deriving DecidableEq

namespace FileSystem

def content? (fs : FileSystem) (l : Location) : Option Content :=
  if l = [] then some .directory else fs.entries.lookup l

/-- Put something at a location, in place of what stood there. -/
def put (fs : FileSystem) (l : Location) (c : Content) : FileSystem :=
  { fs with entries := fs.entries.filter (fun e => e.1 != l) ++ [(l, c)] }

/-- Make a directory at a location where nothing stands. -/
def ensureDirectory (fs : FileSystem) (l : Location) : FileSystem :=
  if (fs.content? l).isSome then fs else fs.put l .directory

/-- Put something at a location below the working directory, and make the
directories that lead there. -/
def add (fs : FileSystem) (names : List Text) (c : Content) : FileSystem :=
  let grown := (List.range names.length).foldl
    (fun fs n => fs.ensureDirectory (fs.current ++ names.take n)) fs
  match c with
  | .directory => grown.ensureDirectory (fs.current ++ names)
  | .file bytes => grown.put (fs.current ++ names) (.file bytes)

/-- The file system with nothing but a working directory. -/
def empty (current : Location) : FileSystem :=
  { current := current
    entries := (List.range current.length).map fun n => (current.take (n + 1), .directory) }

/-- Go from a directory to the place that one piece of a path names. -/
def step (fs : FileSystem) (l : Location) (piece : Text) : Except FileError Location :=
  match fs.content? l with
  | none => .error .notFound
  | some (.file _) => .error .notDirectory
  | some .directory =>
    match Path.Component.ofPiece? false piece with
    | some .parent => .ok l.dropLast
    | some (.name n) =>
      if 255 < Text.utf8Length n then .error .nameTooLong
      else if (fs.content? (l ++ [n])).isSome then .ok (l ++ [n])
      else .error .notFound
    | _ => .ok l

def follow (fs : FileSystem) : Location → List Text → Except FileError Location
  | l, [] => .ok l
  | l, piece :: rest =>
    match fs.step l piece with
    | .error e => .error e
    | .ok l' => fs.follow l' rest

def locate (fs : FileSystem) (p : Path) : Except FileError Location :=
  if p.text.contains '\x00' then .error .invalidName
  else if p.text = [] then .error .notFound
  else if 4096 ≤ Text.utf8Length p.text then .error .nameTooLong
  else fs.follow (if p.isAbsolute then [] else fs.current) p.pieces

def find (fs : FileSystem) (p : Path) : Except FileError Content :=
  match fs.locate p with
  | .error e => .error e
  | .ok l => (fs.content? l).elim (.error .notFound) .ok

def read (fs : FileSystem) (p : Path) : Except FileError (List UInt8) :=
  match fs.find p with
  | .error e => .error e
  | .ok .directory => .error .isDirectory
  | .ok (.file bytes) => .ok bytes

def hasEntry (fs : FileSystem) (p : Path) : Bool := (fs.find p).isOk

def isFile (fs : FileSystem) (p : Path) : Bool :=
  match fs.find p with
  | .ok (.file _) => true
  | _ => false

def isDirectory (fs : FileSystem) (p : Path) : Bool :=
  match fs.find p with
  | .ok .directory => true
  | _ => false

/-- The entry of a walk for what stands at a location under a given path. -/
def walkEntry (p : Path) : Content → WalkEntry
  | .file _ => .file p
  | .directory => .directory p

/-- The path of a location below the location of `root`. -/
def pathBelow (root : Path) (names : List Text) : Path :=
  names.foldl (fun p n => p.join ⟨n⟩) root

def walk (fs : FileSystem) (root : Path) : List WalkEntry :=
  match fs.locate root with
  | .error e => [.inaccessible root e]
  | .ok l =>
    let below := fs.entries.filterMap fun (l', c) =>
      if l.isPrefixOf l' && l != l' then
        some (walkEntry (pathBelow root (l'.drop l.length)) c)
      else none
    (fs.content? l).toList.map (walkEntry root) ++ below

end FileSystem
end ResourceBundles
