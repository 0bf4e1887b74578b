import ScriptSession.Analysis.Cache
import ScriptSession.Analysis.Completion
import ScriptSession.Analysis.Highlight
import ScriptSession.Analysis.Workspace
import ScriptSession.Artifact
import ScriptSession.Artifact.Set
import ScriptSession.CommandLine
import ScriptSession.Diagnostic
import ScriptSession.Directive
import ScriptSession.FileTree
import ScriptSession.Framework
import ScriptSession.Framework.Discovery
import ScriptSession.Host
import ScriptSession.Host.Arguments
import ScriptSession.Host.Glob
import ScriptSession.Host.Octets
import ScriptSession.Host.Regex
import ScriptSession.Host.Regex.Attempt
import ScriptSession.Host.Regex.Automaton
import ScriptSession.Host.Regex.Bracket
import ScriptSession.Host.Regex.CharSet
import ScriptSession.Host.Regex.Fault
import ScriptSession.Host.Regex.NodeSet
import ScriptSession.Host.Regex.Reader
import ScriptSession.Host.Regex.Recall
import ScriptSession.Host.Regex.Run
import ScriptSession.Host.Regex.Screen
import ScriptSession.Host.Regex.Sift
import ScriptSession.Host.Regex.State
import ScriptSession.Host.Regex.Tree
import ScriptSession.Host.Regex.Walk
import ScriptSession.Host.Sed.Cursor
import ScriptSession.Host.Sed.Editor
import ScriptSession.Host.Sed.Escape
import ScriptSession.Host.Sed.Execution
import ScriptSession.Host.Sed.Reader
import ScriptSession.Host.Sed.Request
import ScriptSession.Host.Sed.Script
import ScriptSession.Host.Sed.Selection
import ScriptSession.Host.Sed.Substitution
import ScriptSession.Host.Shell
import ScriptSession.Host.Shell.Arithmetic
import ScriptSession.Host.Shell.Builtin
import ScriptSession.Host.Shell.Condition
import ScriptSession.Host.Shell.Cursor
import ScriptSession.Host.Shell.Execution
import ScriptSession.Host.Shell.Machine
import ScriptSession.Host.Shell.Reader
import ScriptSession.Host.Shell.Script
import ScriptSession.Host.Shell.Token
import ScriptSession.Host.Tools
import ScriptSession.Main
import ScriptSession.Module.File
import ScriptSession.Module.Identity
import ScriptSession.Module.Table
import ScriptSession.Path
import ScriptSession.Path.Key
import ScriptSession.Position
import ScriptSession.Proofs.Syntax
import ScriptSession.References.Service
import ScriptSession.ResolutionError
import ScriptSession.Resolve.Build
import ScriptSession.Resolve.Chain
import ScriptSession.Resolve.Package
import ScriptSession.Script.Builtin
import ScriptSession.Script.Engine
import ScriptSession.Script.Execution
import ScriptSession.Script.Typing
import ScriptSession.Session.Basic
import ScriptSession.Session.Config
import ScriptSession.Session.Evaluation
import ScriptSession.Syntax
import ScriptSession.Syntax.Outline
import ScriptSession.Syntax.Parser
import ScriptSession.Text.Ascii
import ScriptSession.Text.Blank
import ScriptSession.Text.Cut
import ScriptSession.Text.Decimal
import ScriptSession.Text.Lines
import ScriptSession.Text.Offset
import ScriptSession.Text.Quoted
import ScriptSession.Text.Unprintable
import ScriptSession.Token
import ScriptSession.Token.Escape
import ScriptSession.Token.Lexer
import ScriptSession.Value
import ScriptSession.Version
import ScriptSession.Word
import ScriptSession.Proofs.Typing
import ScriptSession.Proofs.Outcome
import ScriptSession.Proofs.Evaluation
import ScriptSession.Proofs.Soundness
import ScriptSession.Proofs.Grammar
import ScriptSession.Proofs.Reading
import ScriptSession.Proofs.Lexing
import ScriptSession.Proofs.Incremental
import ScriptSession.Proofs.Meaning
import ScriptSession.Proofs.Rows
import ScriptSession.Proofs.Directive
import ScriptSession.Proofs.Binding
import ScriptSession.Proofs.Service
import ScriptSession.Proofs.Run
import ScriptSession.Proofs.Completion
import ScriptSession.Proofs.Mirror
import ScriptSession.Proofs.Framework
import ScriptSession.Proofs.Isolation
import ScriptSession.Proofs.Numeral
import ScriptSession.Proofs.Precedence
import ScriptSession.Proofs.Derivation
import ScriptSession.Proofs.Printing
import ScriptSession.Proofs.RoundTrip
import ScriptSession.Proofs.Provenance
import ScriptSession.Proofs.Continuation
import ScriptSession.Proofs.Outline
import ScriptSession.Proofs.Reconciliation
import ScriptSession.Proofs.AnalysisView
import ScriptSession.Proofs.Selection
import ScriptSession.Proofs.SessionView
import ScriptSession.Proofs.Admission
import ScriptSession.Proofs.Resolution
import ScriptSession.Proofs.Growth
import ScriptSession.Proofs.Query
import ScriptSession.Proofs.Route
import ScriptSession.Proofs.Layers
import ScriptSession.Proofs.Priority
import ScriptSession.Proofs.Seeding
import ScriptSession.Proofs.Stopping
import ScriptSession.Proofs.Poisoning
import ScriptSession.Proofs.Arithmetic
import ScriptSession.Proofs.Discovery
import ScriptSession.Proofs.Contents
import ScriptSession.Proofs.Closure
import ScriptSession.Proofs.Trim
import ScriptSession.Proofs.Header
import ScriptSession.Proofs.Export
import ScriptSession.Proofs.ExportName
import ScriptSession.Proofs.ModuleText
import ScriptSession.Proofs.Feed
import ScriptSession.Proofs.Blame
import ScriptSession.Proofs.Blanking
import ScriptSession.Proofs.Offers
import ScriptSession.Proofs.Shape
import ScriptSession.Proofs.Tiling
import ScriptSession.Proofs.Slicing
import ScriptSession.Proofs.Faithful
import ScriptSession.Proofs.Highlighting
import ScriptSession.Proofs.Display
import ScriptSession.Proofs.Collection
import ScriptSession.Proofs.Retention
import ScriptSession.Proofs.Encoding
import ScriptSession.Proofs.Intake
import ScriptSession.Proofs.Address
import ScriptSession.Proofs.Place
import ScriptSession.Proofs.Segment
import ScriptSession.Proofs.Cursor
import ScriptSession.Proofs.Moves
import ScriptSession.Proofs.Bounds
