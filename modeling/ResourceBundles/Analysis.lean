import ResourceBundles.Issue
import ResourceBundles.KeyTree.Basic
import ResourceBundles.Properties.File
import ResourceBundles.Source

/-!
# Analysis of bundles

An analysis builds the key tree of a bundle, resolves the argument types of every
value, and collects the issues.  Many bundles are analysed independently of each
other; one that cannot be read becomes an issue.
-/

namespace ResourceBundles

/-- The argument types of the value at a leaf of the key tree. -/
structure Signature where
  path : Text
  value : Text
  arguments : Except PatternError (List TypeSet)

structure Analysis where
  source : Source
  tree : KeyTree
  signatures : List Signature
  issues : List Issue
  entryCount : Nat

def KeyTree.signatures (t : KeyTree) (style : Style) : List Signature :=
  t.entries.map fun (path, value) => ⟨path, value, style.resolve value⟩

namespace Analysis

/-- The issue about the key of an entry, if there is one. -/
def keyIssue? (file : Text) (e : Entry) : Option Issue :=
  if e.key = [] then some (.emptyKey ⟨file, e.line⟩ e.value)
  else if (Dotted.segments e.key).any List.isEmpty then
    some (.emptySegment ⟨file, e.line⟩ e.key)
  else none

/-- The issue about a value that is no format.  It is on the line of its key. -/
def valueIssue? (file : Text) (b : Bundle) (s : Signature) : Option Issue :=
  match s.arguments with
  | .ok _ => none
  | .error e =>
    some (.patternSyntax ⟨file, ((b.get? s.path).map Entry.line).getD 0⟩ s.path s.value e)

def ofBundle (source : Source) (style : Style) (b : Bundle) : Analysis :=
  let tree := KeyTree.build b.pairs
  let signatures := tree.signatures style
  { source := source
    tree := tree
    signatures := signatures
    issues := b.entries.filterMap (keyIssue? source.path.text)
      ++ signatures.filterMap (valueIssue? source.path.text b)
    entryCount := b.size }

/-- The analysis of the bundle in the file of a source. -/
def ofSource (read : FileReader) (style : Style) (encoding : Encoding) (source : Source) :
    Except BundleError Analysis :=
  (Properties.parseFile read encoding source.path).map (ofBundle source style)

def failed (a : Analysis) : List Signature :=
  a.signatures.filter fun s => !s.arguments.isOk

end Analysis

structure Batch where
  analyses : List Analysis
  failures : List BundleError

namespace Batch

def empty : Batch := ⟨[], []⟩

def add (b : Batch) : Except BundleError Analysis → Batch
  | .ok a => { b with analyses := b.analyses ++ [a] }
  | .error e => { b with failures := b.failures ++ [e] }

def ofSources (read : FileReader) (style : Style) (encoding : Encoding)
    (sources : List Source) : Batch :=
  (sources.map (Analysis.ofSource read style encoding)).foldl add empty

def entryCount (b : Batch) : Nat := (b.analyses.map Analysis.entryCount).foldr (· + ·) 0

def failureIssue (e : BundleError) : Issue := .parseError e.path.text e.message

/-- The issues of all bundles, and behind them those of the failures. -/
def issues (b : Batch) : List Issue :=
  b.analyses.flatMap Analysis.issues ++ b.failures.map failureIssue

end Batch
end ResourceBundles
