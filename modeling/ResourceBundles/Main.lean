import ResourceBundles.CommandLine.Arguments
import ResourceBundles.CommandLine.Run
import ResourceBundles.CommandLine.Usage

/-!
# The program

The parts of the disk that a command may look at are read into a file system, the
command is run on it, and what has changed is written back.
-/

namespace ResourceBundles.Program

def diskName (l : Location) : String :=
  String.ofList (['/'] ++ ['/'].intercalate l)

def content? (l : Location) : IO (Option Content) := do
  let place := (← IO.currentDir) / diskName l
  if ← place.isDir then return some .directory
  else if ← place.pathExists then
    try return some (.file (← IO.FS.readBinFile place).toList)
    catch _ => return none
  else return none

def take (fs : FileSystem) (l : Location) : IO FileSystem := do
  if (fs.content? l).isSome then return fs
  else
    match ← content? l with
    | some c => return fs.put l c
    | none => return fs

/-- Take over the places that the pieces of a path lead through. -/
def follow (fs : FileSystem) (l : Location) : List Text → IO FileSystem
  | [] => return fs
  | piece :: rest =>
    match Path.Component.ofPiece? false piece with
    | some .parent => follow fs l.dropLast rest
    | some (.name n) => do follow (← take fs (l ++ [n])) (l ++ [n]) rest
    | _ => follow fs l rest

def takePath (fs : FileSystem) (p : Path) : IO FileSystem :=
  follow fs (if p.isAbsolute then [] else fs.current) p.pieces

/-- Take over everything below a directory.  Links are left out. -/
partial def takeTree (fs : FileSystem) (l : Location) : IO FileSystem := do
  let place := (← IO.currentDir) / diskName l
  let mut fs := fs
  for entry in (← place.readDir) do
    let below := l ++ [entry.fileName.toList]
    match (← entry.path.symlinkMetadata).type with
    | .dir => fs ← takeTree (← take fs below) below
    | .file => fs ← take fs below
    | _ => pure ()
  return fs

def takeSources (fs : FileSystem) (s : Settings) (bundles : List Text) : IO FileSystem := do
  let mut fs ← takePath fs s.sourceRoot
  for name in bundles do
    fs ← takePath fs (Source.ofName s.sourceRoot name).path
  if bundles.isEmpty then
    match fs.locate s.sourceRoot with
    | .ok l => if fs.isDirectory s.sourceRoot then fs ← takeTree fs l
    | .error _ => pure ()
  return fs

def fileSystem (c : Command) : IO FileSystem := do
  let here := (((← IO.currentDir).toString.toList).splitOn '/').filter (· ≠ [])
  let mut fs := FileSystem.empty here
  for name in [Config.fileName, Config.repositoryMarker] do
    fs ← take fs (here ++ [name])
  let load (bundles : List Text) (o : Overrides) : IO FileSystem :=
    match Settings.load fs Command.workingDirectory o with
    | .ok s => takeSources fs s bundles
    | .error _ => return fs
  match c with
  | .check bundles o => load bundles o
  | .tree bundle _ o => load [bundle] o
  | .init => return fs

def writeBack (before after : FileSystem) : IO Unit := do
  unless before = after do
    for (l, c) in after.entries do
      match c with
      | .file bytes =>
        if before.content? l ≠ some c then
          IO.FS.writeBinFile (diskName l) (ByteArray.mk bytes.toArray)
      | .directory => pure ()

def perform (c : Command) : IO UInt32 := do
  let before ← fileSystem c
  let outcome := c.run before
  writeBack before outcome.files
  IO.eprint (String.ofList outcome.log)
  IO.print (String.ofList outcome.output)
  return outcome.status.code.toUInt32

end ResourceBundles.Program

open ResourceBundles in
def main (args : List String) : IO UInt32 := do
  match Command.ofArguments (args.map String.toList) with
  | .ok (some c) => Program.perform c
  | .ok none =>
    IO.print (String.ofList usage)
    return 0
  | .error r =>
    if r.code = 0 then IO.print (String.ofList r.text) else IO.eprint (String.ofList r.text)
    return r.code.toUInt32
