import ResourceBundles.Analysis
import ResourceBundles.Config.Lookup
import ResourceBundles.Scan

/-!
# Settings of a run

A run follows its options first, then the configuration, then the standard values.
The settings say where the bundles of the run are, and what to tell on the way.
-/

namespace ResourceBundles

structure Overrides where
  sourceRoot : Option Text
  style : Option Style
  encoding : Option Encoding
  verbose : Bool
deriving DecidableEq

namespace Overrides

def none : Overrides := ⟨.none, .none, .none, false⟩

/-- A configuration with the chosen values in place of its own. -/
def apply (o : Overrides) (c : Config) : Config :=
  { c with
    sourceRoot := o.sourceRoot.getD c.sourceRoot
    style := o.style.getD c.style
    encoding := o.encoding.getD c.encoding }

end Overrides

structure Settings where
  config : Config
  sourceRoot : Path
  verbose : Bool
  fromFile : Bool
deriving DecidableEq

namespace Settings

/-- The source root of a configuration for a given directory.  A relative one lies
below the directory, unless that is the working directory. -/
def resolveRoot (start : Path) (sourceRoot : Text) : Path :=
  let root : Path := ⟨sourceRoot⟩
  if root.isAbsolute || start.isCurrent then root else start.join root

def load (fs : FileSystem) (start : Path) (o : Overrides) : Except ConfigError Settings :=
  (Config.load fs start).map fun (found, fromFile) =>
    let config := o.apply found
    { config := config
      sourceRoot := resolveRoot start config.sourceRoot
      verbose := o.verbose
      fromFile := fromFile }

def startLog (s : Settings) : Text :=
  if s.verbose && !s.fromFile then
    Text.line ("Note: No " ++ Config.fileName ++ " found, using default configuration")
  else []

def warningLog (warnings : List ScanWarning) : Text :=
  warnings.flatMap fun w => Text.line ("warning: " ++ w.message)

/-- What a run tells about the scan of its source root. -/
def scanLog (s : Settings) (scan : Scan) : Text :=
  (if s.verbose then warningLog scan.warnings else []) ++
  (if 0 < scan.skipped then
    Text.line ("warning: " ++ Text.decimal scan.skipped
      ++ " path(s) skipped due to access errors"
      ++ (if s.verbose then [] else " (use -v for details)".toList))
  else []) ++
  (if s.verbose then
    Text.line ("Note: Found " ++ Text.decimal scan.sources.length ++ " bundle(s) under "
      ++ s.sourceRoot.text)
  else [])

/-- The message for a source root that is no directory. -/
def missingRoot (s : Settings) : Text := "Source root does not exist: " ++ s.sourceRoot.text

/-- The sources of the named bundles, or of all bundles below the source root if no
name is given, together with what the run tells. -/
def sources (s : Settings) (fs : FileSystem) (names : List Text) :
    Except Text (List Source × Text) :=
  if names ≠ [] then .ok (names.map (Source.ofName s.sourceRoot), [])
  else if fs.isDirectory s.sourceRoot then
    let scan := Scan.ofWalk s.sourceRoot s.config.ignores (fs.walk s.sourceRoot)
    .ok (scan.sources, s.scanLog scan)
  else .error s.missingRoot

/-- What a verbose run tells about the bundles that it cannot analyse. -/
def failureLog (verbose : Bool) (b : Batch) : Text :=
  if verbose then
    b.failures.flatMap fun e =>
      Text.line ("Warning: " ++ e.path.text ++ " - " ++ e.message)
  else []

end Settings
end ResourceBundles
