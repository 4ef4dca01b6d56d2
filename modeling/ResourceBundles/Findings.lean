import ResourceBundles.Analysis

/-!
# Findings

What a run has found out: the sorted issues, how many there are of each weight, and
how much was checked.  Errors make a run fail; warnings alone do not.
-/

namespace ResourceBundles

inductive ExitStatus where
  /-- No error was found. -/
  | success
  /-- Errors were found. -/
  | failure
  /-- The run could not be carried out. -/
  | fault
deriving DecidableEq

def ExitStatus.code : ExitStatus → Nat
  | success => 0
  | failure => 1
  | fault => 2

structure Findings where
  issues : List Issue
  errorCount : Nat
  warningCount : Nat
  parseErrorCount : Nat
  bundlesChecked : Nat
  entriesChecked : Nat
deriving DecidableEq

namespace Findings

/-- The findings of some issues in a number of bundles and entries. -/
def ofIssues (issues : List Issue) (bundles entries : Nat) : Findings :=
  let sorted := Issue.sort issues
  { issues := sorted
    errorCount := Issue.count .error sorted
    warningCount := sorted.length - Issue.count .error sorted
    parseErrorCount := (sorted.filter fun i => i.rule = .parseError).length
    bundlesChecked := bundles
    entriesChecked := entries }

def ofBatch (b : Batch) : Findings := ofIssues b.issues b.analyses.length b.entryCount

def ofAnalysis (a : Analysis) : Findings := ofIssues a.issues 1 a.entryCount

def status (f : Findings) : ExitStatus := if 0 < f.errorCount then .failure else .success

end Findings
end ResourceBundles
