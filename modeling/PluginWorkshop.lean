import PluginWorkshop.ClassSpec.Basic
import PluginWorkshop.ClassSpec.Placement
import PluginWorkshop.CommandLine.Completion
import PluginWorkshop.CommandLine.Execution
import PluginWorkshop.CommandLine.Failure
import PluginWorkshop.CommandLine.Grammar
import PluginWorkshop.CommandLine.Invocation
import PluginWorkshop.CommandLine.Matching
import PluginWorkshop.CommandLine.Program
import PluginWorkshop.CommandLine.Synopsis
import PluginWorkshop.CommandLog.Basic
import PluginWorkshop.CommandLog.Entry
import PluginWorkshop.Error
import PluginWorkshop.Json.Printer
import PluginWorkshop.Json.Reader
import PluginWorkshop.Json.Value
import PluginWorkshop.Machine.Basic
import PluginWorkshop.Machine.Changes
import PluginWorkshop.Machine.FileTree
import PluginWorkshop.Machine.Files
import PluginWorkshop.Machine.OsError
import PluginWorkshop.Machine.Path
import PluginWorkshop.Machine.Process
import PluginWorkshop.Main
import PluginWorkshop.Manifest.Basic
import PluginWorkshop.Manifest.Mapping
import PluginWorkshop.Php.Anchor
import PluginWorkshop.Php.Bootstrap
import PluginWorkshop.Php.Identifier
import PluginWorkshop.Php.Instantiation
import PluginWorkshop.Php.Masking
import PluginWorkshop.Php.Quoted
import PluginWorkshop.Php.Source
import PluginWorkshop.Project.Basic
import PluginWorkshop.Project.Integration
import PluginWorkshop.Project.Make
import PluginWorkshop.Project.Patch
import PluginWorkshop.Project.Start
import PluginWorkshop.Project.StartOptions
import PluginWorkshop.Report.Encode
import PluginWorkshop.Report.Format
import PluginWorkshop.Settings.Basic
import PluginWorkshop.Settings.Document
import PluginWorkshop.Settings.File
import PluginWorkshop.Template.Basic
import PluginWorkshop.Template.Builtin
import PluginWorkshop.Text.Ascii
import PluginWorkshop.Text.Blank
import PluginWorkshop.Text.Split
import PluginWorkshop.Toml.Reader
import PluginWorkshop.Toml.Value
import PluginWorkshop.Toml.Writer
import PluginWorkshop.Proofs.Json.Members
import PluginWorkshop.Proofs.Json.Reading
import PluginWorkshop.Proofs.Json.Printing
import PluginWorkshop.Proofs.Json.Equality
import PluginWorkshop.Proofs.Json.Sources
import PluginWorkshop.Proofs.Manifest.Saving
import PluginWorkshop.Proofs.Manifest.Toggling
import PluginWorkshop.Proofs.Machine.Trees
import PluginWorkshop.Proofs.Machine.Actions
import PluginWorkshop.Proofs.Machine.Paths
import PluginWorkshop.Proofs.Machine.Walking
import PluginWorkshop.Proofs.Machine.Places
import PluginWorkshop.Proofs.Machine.Operations
import PluginWorkshop.Proofs.Project.Resolving
import PluginWorkshop.Proofs.Project.Toggling
import PluginWorkshop.Proofs.Machine.Directories
import PluginWorkshop.Proofs.Machine.NewFiles
import PluginWorkshop.Proofs.Project.Making
import PluginWorkshop.Proofs.Text.Splitting
import PluginWorkshop.Proofs.Php.Lines
import PluginWorkshop.Proofs.Php.Masking
import PluginWorkshop.Proofs.Php.Bodies
import PluginWorkshop.Proofs.ClassSpec.WiredTexts
import PluginWorkshop.Proofs.Php.Places
import PluginWorkshop.Proofs.Php.Wiring
import PluginWorkshop.Proofs.Php.Framing
import PluginWorkshop.Proofs.Php.Instances
import PluginWorkshop.Proofs.Php.LiveAnchors
import PluginWorkshop.Proofs.Php.Presence
import PluginWorkshop.Proofs.Json.LineBreaks
import PluginWorkshop.Proofs.Manifest.Layout
import PluginWorkshop.Proofs.Manifest.Rewriting
import PluginWorkshop.Proofs.Project.Cycles
import PluginWorkshop.Proofs.Manifest.Repeating
import PluginWorkshop.Proofs.Php.Blocks
import PluginWorkshop.Proofs.Php.TopLevel
import PluginWorkshop.Proofs.Php.Bindings
import PluginWorkshop.Proofs.Php.Unbinding
import PluginWorkshop.Proofs.Php.CreatedClasses
import PluginWorkshop.Proofs.Project.Describing
import PluginWorkshop.Proofs.Machine.Removing
import PluginWorkshop.Proofs.Machine.Siblings
import PluginWorkshop.Proofs.Project.SupportFile
import PluginWorkshop.Proofs.Project.Detaching
import PluginWorkshop.Proofs.Project.Adding
import PluginWorkshop.Proofs.Manifest.Dropping
import PluginWorkshop.Proofs.Project.TogglingTwice
import PluginWorkshop.Proofs.Php.Likeness
import PluginWorkshop.Proofs.Php.ClassTexts
import PluginWorkshop.Proofs.Php.BoundLines
import PluginWorkshop.Proofs.Php.PassedLines
import PluginWorkshop.Proofs.Php.TrailingBlanks
import PluginWorkshop.Proofs.Php.Rereading
import PluginWorkshop.Proofs.Php.Commuting
import PluginWorkshop.Proofs.Php.WiredTwice
import PluginWorkshop.Proofs.CommandLog.Entries
import PluginWorkshop.Proofs.CommandLog.Storing
import PluginWorkshop.Proofs.CommandLog.Confirming
import PluginWorkshop.Proofs.Manifest.Preserving
import PluginWorkshop.Proofs.Machine.Entries
import PluginWorkshop.Proofs.Machine.Canonical
import PluginWorkshop.Proofs.Project.NewManifest
import PluginWorkshop.Proofs.Project.Starting
import PluginWorkshop.Proofs.Php.MethodEnds
import PluginWorkshop.Proofs.Toml.Strings
import PluginWorkshop.Proofs.Toml.Documents
import PluginWorkshop.Proofs.Settings.Storing
import PluginWorkshop.Proofs.Settings.Commands
import PluginWorkshop.Proofs.ClassSpec.Placing
import PluginWorkshop.Proofs.ClassSpec.ClassFiles
import PluginWorkshop.Proofs.Project.Placing
import PluginWorkshop.Proofs.Php.AboveConstructor
import PluginWorkshop.Proofs.Php.TextLexing
import PluginWorkshop.Proofs.Php.Remasking
import PluginWorkshop.Proofs.Php.Unedited
import PluginWorkshop.Proofs.ClassSpec.Accepting
import PluginWorkshop.Proofs.ClassSpec.SealedStatements
import PluginWorkshop.Proofs.Project.Validating
import PluginWorkshop.Proofs.Manifest.Reporting
import PluginWorkshop.Proofs.CommandLog.Loading
import PluginWorkshop.Proofs.CommandLog.Invocations
import PluginWorkshop.Proofs.Project.Slugs
import PluginWorkshop.Proofs.Project.ScaffoldCommands
import PluginWorkshop.Proofs.Project.StartingInOrder
import PluginWorkshop.Proofs.Text.Trimming
import PluginWorkshop.Proofs.Settings.Keys
import PluginWorkshop.Proofs.Report.Leaves
import PluginWorkshop.Proofs.Machine.Guards
