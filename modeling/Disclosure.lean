import Disclosure.CodeList
import Disclosure.CodeTree.Basic
import Disclosure.CodeTree.Drawing
import Disclosure.CodeTree.Indented
import Disclosure.CodeTree.Relations
import Disclosure.CodeTree.Rows
import Disclosure.CodeTree.Walk
import Disclosure.Column
import Disclosure.CommandLine.Grammar
import Disclosure.CommandLine.Invocation
import Disclosure.CommandLine.Listing
import Disclosure.CommandLine.Run
import Disclosure.Csv
import Disclosure.Decimal.Binary
import Disclosure.Decimal.Layout
import Disclosure.Decimal.Reading
import Disclosure.Decimal.Shortest
import Disclosure.Fault
import Disclosure.FileSystem
import Disclosure.Forest
import Disclosure.Frame.Basic
import Disclosure.Frame.Display
import Disclosure.Frame.Reading
import Disclosure.Frame.Writing
import Disclosure.Grid.Drawing
import Disclosure.Grid.Widths
import Disclosure.Grid.Wrapping
import Disclosure.Hierarchy
import Disclosure.Input.Basic
import Disclosure.Input.Metadata
import Disclosure.Job.Artifacts
import Disclosure.Job.Basic
import Disclosure.Job.Command
import Disclosure.Job.Paths
import Disclosure.Job.Setup
import Disclosure.JobFile.Basic
import Disclosure.JobFile.Building
import Disclosure.JobFile.Reading
import Disclosure.Json.Basic
import Disclosure.Json.Encode
import Disclosure.Json.Reading
import Disclosure.Log.Event
import Disclosure.Log.Filter
import Disclosure.Log.Layout
import Disclosure.Logbook
import Disclosure.Main
import Disclosure.Override
import Disclosure.Path
import Disclosure.Proofs.CodeList
import Disclosure.Proofs.CodeTree.Depths
import Disclosure.Proofs.CodeTree.Descendants
import Disclosure.Proofs.CodeTree.Drawing
import Disclosure.Proofs.CodeTree.Growing
import Disclosure.Proofs.CodeTree.Indented
import Disclosure.Proofs.CodeTree.Links
import Disclosure.Proofs.CodeTree.Moving
import Disclosure.Proofs.CodeTree.Outline
import Disclosure.Proofs.CodeTree.Paths
import Disclosure.Proofs.CodeTree.Preorder
import Disclosure.Proofs.CodeTree.Reachable
import Disclosure.Proofs.CodeTree.ReadAgain
import Disclosure.Proofs.CodeTree.Relations
import Disclosure.Proofs.CodeTree.RowPaths
import Disclosure.Proofs.CodeTree.Rows
import Disclosure.Proofs.CodeTree.Walks
import Disclosure.Proofs.Column
import Disclosure.Proofs.Column.History
import Disclosure.Proofs.Csv
import Disclosure.Proofs.Decimal
import Disclosure.Proofs.Fault
import Disclosure.Proofs.FileSystem
import Disclosure.Proofs.Forest
import Disclosure.Proofs.Frame
import Disclosure.Proofs.Hierarchy
import Disclosure.Proofs.Input.Description
import Disclosure.Proofs.Input.Roles
import Disclosure.Proofs.Job.Artifacts
import Disclosure.Proofs.Job.Batch
import Disclosure.Proofs.Job.CodesAsText
import Disclosure.Proofs.Job.Commands
import Disclosure.Proofs.Job.Contents
import Disclosure.Proofs.Job.Directories
import Disclosure.Proofs.Job.Endings
import Disclosure.Proofs.Job.Faults
import Disclosure.Proofs.Job.Places
import Disclosure.Proofs.Job.Problems
import Disclosure.Proofs.Job.Refusal
import Disclosure.Proofs.Job.Repair
import Disclosure.Proofs.Job.Running
import Disclosure.Proofs.Job.Script
import Disclosure.Proofs.Job.Separated
import Disclosure.Proofs.Job.SetUp
import Disclosure.Proofs.Job.SetUpTwice
import Disclosure.Proofs.Job.SharedDirectory
import Disclosure.Proofs.Job.TableFiles
import Disclosure.Proofs.Job.Tables
import Disclosure.Proofs.Job.TreeFiles
import Disclosure.Proofs.Job.Untouched
import Disclosure.Proofs.JobFile
import Disclosure.Proofs.Logbook
import Disclosure.Proofs.Metadata
import Disclosure.Proofs.Override
import Disclosure.Proofs.Parent
import Disclosure.Proofs.Path
import Disclosure.Proofs.Recode.File
import Disclosure.Proofs.Recode.Kept
import Disclosure.Proofs.Recode.Levels
import Disclosure.Proofs.Result.Masking
import Disclosure.Proofs.Rule.Composition
import Disclosure.Proofs.Rule.Counts
import Disclosure.Proofs.Slug
import Disclosure.Proofs.Step
import Disclosure.Proofs.Text.Blank
import Disclosure.Proofs.Text.Bytes
import Disclosure.Proofs.Text.Joined
import Disclosure.Proofs.Text.Line
import Disclosure.Proofs.Text.Numbered
import Disclosure.Proofs.Text.Split
import Disclosure.Proofs.Toml
import Disclosure.Recode.File
import Disclosure.Recode.Mapping
import Disclosure.Result.Status
import Disclosure.Result.Table
import Disclosure.Rule.Basic
import Disclosure.Rule.Composition
import Disclosure.Rule.Kind
import Disclosure.RunReport
import Disclosure.Step
import Disclosure.Suppression
import Disclosure.Table
import Disclosure.Text.Blank
import Disclosure.Text.Case
import Disclosure.Text.Justify
import Disclosure.Text.Line
import Disclosure.Text.Split
import Disclosure.Text.Width
import Disclosure.Toml.Basic
import Disclosure.Toml.Document
import Disclosure.Toml.Scalar
