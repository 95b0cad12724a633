import Stencil.Text.Ranges
import Stencil.Text.Blank
import Stencil.Text.Alphanumeric
import Stencil.Text.Lowercase
import Stencil.Placeholder
import Stencil.Bindings
import Stencil.Substitution
import Stencil.DashCase
import Stencil.Path
import Stencil.FileSystem.Basic
import Stencil.FileSystem.Resolve
import Stencil.FileSystem.Access
import Stencil.Failure
import Stencil.Event
import Stencil.World
import Stencil.TextFile
import Stencil.Json.Quoted
import Stencil.Json.Lexeme
import Stencil.Json.Number
import Stencil.Json.Record
import Stencil.Request
import Stencil.Descriptor
import Stencil.FileSystem.Walk
import Stencil.Filling
import Stencil.Copying
import Stencil.Scaffold
import Stencil.ShippedTemplate
import Stencil.Config.Basic
import Stencil.Wizard
import Stencil.Toml.Value
import Stencil.Toml.Scalar
import Stencil.Toml.Quoted
import Stencil.Toml.Table
import Stencil.Toml.Statement
import Stencil.Toml.Document
import Stencil.Config.Reading
import Stencil.CommandLine.Arguments
import Stencil.CommandLine.LogFilter
import Stencil.CommandLine.Program
import Stencil.Disk
import Stencil.Main
import Stencil.Proofs.JoinedPath
import Stencil.Proofs.WellFormed
import Stencil.Proofs.Resolution
import Stencil.Proofs.NewDirectory
import Stencil.Proofs.Endings
import Stencil.Proofs.Walks
import Stencil.Proofs.Growth
import Stencil.Proofs.Appending
import Stencil.Proofs.FilledTree
import Stencil.Proofs.AppendOnly
import Stencil.Proofs.Trail
import Stencil.Proofs.CopiedTree
import Stencil.Proofs.Reading
import Stencil.Proofs.Substituting
import Stencil.Proofs.Planning
import Stencil.Proofs.TemplateTree
import Stencil.Proofs.Outcomes
import Stencil.Proofs.FinishedProject
import Stencil.Proofs.QuotedText
import Stencil.Proofs.DescriptorText
import Stencil.Proofs.FilledDescriptor
import Stencil.Proofs.DashedName
import Stencil.Proofs.ProjectDescriptor
import Stencil.Proofs.DirectoryName
import Stencil.Proofs.CanonicalName
import Stencil.Proofs.TokenGrammar
import Stencil.Proofs.ByteScanner
import Stencil.Proofs.Tiling
import Stencil.Proofs.BelowRoot
import Stencil.Proofs.Overwriting
import Stencil.Proofs.WrittenFile
import Stencil.Proofs.WrittenDescriptor
import Stencil.Proofs.WalkOrder
import Stencil.Proofs.FirstFailure
import Stencil.Proofs.FilledRoot
import Stencil.Proofs.SettledText
import Stencil.Proofs.Seams
import Stencil.Proofs.Survivors
import Stencil.Proofs.Policies
import Stencil.Proofs.PrintedText
import Stencil.Proofs.DescriptorPlaceholders
import Stencil.Proofs.FilledTwice
import Stencil.Proofs.CarriedOut
import Stencil.Proofs.PlannedFiles
import Stencil.Proofs.Interview
import Stencil.Proofs.Availability
import Stencil.Proofs.LinkedWalk
import Stencil.Proofs.LinkedTemplate
import Stencil.Proofs.Transplanting
import Stencil.Proofs.InsideTemplate
import Stencil.Proofs.BinaryFile
import Stencil.Proofs.EntriesBelow
import Stencil.Proofs.WizardOutput
import Stencil.Proofs.SpelledText
import Stencil.Proofs.StatementLines
import Stencil.Proofs.ConfigText
import Stencil.Proofs.JsonText
import Stencil.Proofs.SkippedValue
import Stencil.Proofs.ObjectRows
import Stencil.Proofs.DescriptorLayout
import Stencil.Proofs.BindingHistory
