import ResourceBundles.CommandLine.Basic
import ResourceBundles.Findings
import ResourceBundles.Report.Tree

/-!
# Runs

A run carries out a command on a file system.  Its outcome is a value: the exit
status, what goes to the two outputs, and the file system afterwards.
-/

namespace ResourceBundles

structure Outcome where
  status : ExitStatus
  output : Text
  log : Text
  files : FileSystem
deriving DecidableEq

def errorLine (message : Text) : Text := Text.line ("Error: " ++ message)

/-- A run that cannot be carried out, with what it has told before. -/
def Outcome.fault (fs : FileSystem) (log message : Text) : Outcome :=
  ⟨.fault, [], log ++ errorLine message, fs⟩

namespace Findings

def report (f : Findings) : Text :=
  if f.issues = [] then Report.success f.bundlesChecked f.entriesChecked
  else Report.ofIssues f.issues

end Findings

namespace Command

def workingDirectory : Path := ⟨"."⟩

def runCheck (fs : FileSystem) (bundles : List Text) (o : Overrides) : Outcome :=
  match Settings.load fs workingDirectory o with
  | .error e => .fault fs [] e.message
  | .ok s =>
    match s.sources fs bundles with
    | .error message => .fault fs s.startLog message
    | .ok (sources, log) =>
      let batch := Batch.ofSources fs.read s.config.style s.config.encoding sources
      let findings := Findings.ofBatch batch
      { status := findings.status
        output := findings.report
        log := s.startLog ++ log ++ Settings.failureLog o.verbose batch
          ++ Report.unreadLog o.verbose findings.parseErrorCount
        files := fs }

/-- The output for an analysis: data, or a drawing and a report of the issues. -/
def treeOutput (json : Bool) (a : Analysis) (issues : List Issue) : Text :=
  if json then Text.line a.toJson.render
  else if issues = [] then a.drawing
  else a.drawing ++ Text.line [] ++ Report.ofIssues issues

def runTree (fs : FileSystem) (bundle : Text) (json : Bool) (o : Overrides) : Outcome :=
  match Settings.load fs workingDirectory o with
  | .error e => .fault fs [] e.message
  | .ok s =>
    match Analysis.ofSource fs.read s.config.style s.config.encoding
        (Source.ofName s.sourceRoot bundle) with
    | .error e => .fault fs s.startLog e.message
    | .ok a =>
      let findings := Findings.ofAnalysis a
      { status := findings.status
        output := treeOutput json a findings.issues
        log := s.startLog
        files := fs }

def runInit (fs : FileSystem) : Outcome :=
  if fs.hasEntry ⟨Config.fileName⟩ then
    ⟨.failure, [], errorLine (Config.fileName ++ " already exists"), fs⟩
  else
    { status := .success
      output := Text.line (Report.successMark ++ " Created " ++ Config.fileName)
      log := []
      files := fs.put (fs.current ++ [Config.fileName])
        (.file (Utf8.encode Config.standard.toJson.render)) }

def run (fs : FileSystem) : Command → Outcome
  | check bundles o => runCheck fs bundles o
  | tree bundle json o => runTree fs bundle json o
  | init => runInit fs

end Command
end ResourceBundles
