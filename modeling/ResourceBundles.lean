import ResourceBundles.Analysis
import ResourceBundles.Argument.Kind
import ResourceBundles.Argument.TypeSet
import ResourceBundles.Bundle
import ResourceBundles.CommandLine.Arguments
import ResourceBundles.CommandLine.Basic
import ResourceBundles.CommandLine.Run
import ResourceBundles.CommandLine.Usage
import ResourceBundles.Config.Basic
import ResourceBundles.Config.Lookup
import ResourceBundles.Config.Reader
import ResourceBundles.FileSystem
import ResourceBundles.Findings
import ResourceBundles.Format.Basic
import ResourceBundles.Format.Choice
import ResourceBundles.Format.Conversion
import ResourceBundles.Format.Limit
import ResourceBundles.Format.Pattern
import ResourceBundles.Format.Specifier
import ResourceBundles.Glob
import ResourceBundles.Issue
import ResourceBundles.Json.Basic
import ResourceBundles.Json.Cursor
import ResourceBundles.Json.Expect
import ResourceBundles.Json.Scalar
import ResourceBundles.Json.Skip
import ResourceBundles.KeyTree.Basic
import ResourceBundles.KeyTree.View
import ResourceBundles.Main
import ResourceBundles.Number.Binary64
import ResourceBundles.Path
import ResourceBundles.Properties.Escape
import ResourceBundles.Properties.File
import ResourceBundles.Properties.Line
import ResourceBundles.Properties.Reader
import ResourceBundles.Properties.Split
import ResourceBundles.Report.Issues
import ResourceBundles.Report.Tree
import ResourceBundles.Scan
import ResourceBundles.Settings
import ResourceBundles.Source
import ResourceBundles.Text.Basic
import ResourceBundles.Text.Blank
import ResourceBundles.Text.Dotted
import ResourceBundles.Text.Emoji
import ResourceBundles.Text.Encoding
import ResourceBundles.Text.Property
import ResourceBundles.Text.Quoted
import ResourceBundles.Text.Units
import ResourceBundles.Text.Utf8
import ResourceBundles.Text.Width
import ResourceBundles.Proofs.Text.Lineage
import ResourceBundles.Proofs.KeyTree.Growth
import ResourceBundles.Proofs.KeyTree.Reference
import ResourceBundles.Proofs.KeyTree.Shape
import ResourceBundles.Proofs.Format.Grammar
import ResourceBundles.Proofs.Argument.Merging
import ResourceBundles.Proofs.Format.Positions
import ResourceBundles.Proofs.Properties.Lines
import ResourceBundles.Proofs.Text.Units
import ResourceBundles.Proofs.Properties.Spelling
import ResourceBundles.Proofs.Properties.Layout
import ResourceBundles.Proofs.Text.Trimming
import ResourceBundles.Proofs.Format.Scanning
import ResourceBundles.Proofs.Format.Rendering
import ResourceBundles.Proofs.Bundle
import ResourceBundles.Proofs.KeyTree.DepthFirst
import ResourceBundles.Proofs.Analysis.Exactness
import ResourceBundles.Proofs.Analysis.Verdict
import ResourceBundles.Proofs.Issue
import ResourceBundles.Proofs.Format.Writing
import ResourceBundles.Proofs.KeyTree.Collapsing
import ResourceBundles.Proofs.Analysis.SourceOrder
import ResourceBundles.Proofs.Path
import ResourceBundles.Proofs.Scan.Naming
import ResourceBundles.Proofs.KeyTree.Names
import ResourceBundles.Proofs.KeyTree.Navigation
import ResourceBundles.Proofs.Json.Writing
import ResourceBundles.Proofs.KeyTree.Views
import ResourceBundles.Proofs.Glob
import ResourceBundles.Proofs.Scan.Ignoring
import ResourceBundles.Proofs.KeyTree.Walk
import ResourceBundles.Proofs.KeyTree.Agreement
import ResourceBundles.Proofs.Analysis.Locality
import ResourceBundles.Proofs.Format.Bounds
import ResourceBundles.Proofs.FileSystem
import ResourceBundles.Proofs.Config.Lookup
import ResourceBundles.Proofs.KeyTree.Rebuilding
import ResourceBundles.Proofs.KeyTree.Persistence
import ResourceBundles.Proofs.Properties.Joining
import ResourceBundles.Proofs.Properties.Numbering
import ResourceBundles.Proofs.Properties.Folding
import ResourceBundles.Proofs.Properties.Division
import ResourceBundles.Proofs.Properties.Concatenation
import ResourceBundles.Proofs.Properties.Malformed
import ResourceBundles.Proofs.Properties.Transcription
import ResourceBundles.Proofs.Format.Faults
import ResourceBundles.Proofs.Format.Choices
import ResourceBundles.Proofs.Format.Readdressing
import ResourceBundles.Proofs.Format.Dates
import ResourceBundles.Proofs.Scan.Addressing
import ResourceBundles.Proofs.Scan.Selection
import ResourceBundles.Proofs.Properties.LineEnds
import ResourceBundles.Proofs.Properties.Splitting
import ResourceBundles.Proofs.Format.Closing
import ResourceBundles.Proofs.Report.Drawing
import ResourceBundles.Proofs.KeyTree.Climbing
import ResourceBundles.Proofs.Properties.Cutting
