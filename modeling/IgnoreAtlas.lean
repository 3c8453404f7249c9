import IgnoreAtlas.Calendar.Date
import IgnoreAtlas.Calendar.Layout
import IgnoreAtlas.Calendar.Moment
import IgnoreAtlas.Calendar.Reading
import IgnoreAtlas.Command.Arguments
import IgnoreAtlas.Command.Basic
import IgnoreAtlas.Discovery
import IgnoreAtlas.FileSystem.Edit
import IgnoreAtlas.FileSystem.Listing
import IgnoreAtlas.FileSystem.Resolve
import IgnoreAtlas.Glob.Parser
import IgnoreAtlas.Glob.Pattern
import IgnoreAtlas.Holder.Basic
import IgnoreAtlas.Holder.Change
import IgnoreAtlas.Holder.Registry
import IgnoreAtlas.Json.Basic
import IgnoreAtlas.Json.Reader
import IgnoreAtlas.Json.Record
import IgnoreAtlas.Json.Writer
import IgnoreAtlas.Main
import IgnoreAtlas.Measure
import IgnoreAtlas.Number
import IgnoreAtlas.Path.Basic
import IgnoreAtlas.Path.Set
import IgnoreAtlas.Place
import IgnoreAtlas.Proofs.Discovery.Extent
import IgnoreAtlas.Proofs.Discovery.Search
import IgnoreAtlas.Proofs.FileSystem.Entries
import IgnoreAtlas.Proofs.FileSystem.Files
import IgnoreAtlas.Proofs.FileSystem.Likeness
import IgnoreAtlas.Proofs.FileSystem.Lookup
import IgnoreAtlas.Proofs.FileSystem.Walking
import IgnoreAtlas.Proofs.FileSystem.Writing
import IgnoreAtlas.Proofs.Holder.Building
import IgnoreAtlas.Proofs.Holder.Lifecycle
import IgnoreAtlas.Proofs.Holder.Round
import IgnoreAtlas.Proofs.Holder.Run
import IgnoreAtlas.Proofs.Holder.Trackers
import IgnoreAtlas.Proofs.Measure.Totals
import IgnoreAtlas.Proofs.Measure.Volume
import IgnoreAtlas.Proofs.Path.Below
import IgnoreAtlas.Proofs.Path.Canonical
import IgnoreAtlas.Proofs.Path.Components
import IgnoreAtlas.Proofs.Path.Creation
import IgnoreAtlas.Proofs.Path.Normal
import IgnoreAtlas.Proofs.Path.Settled
import IgnoreAtlas.Proofs.Path.Steps
import IgnoreAtlas.Proofs.Repository.Collection
import IgnoreAtlas.Proofs.Repository.Routing
import IgnoreAtlas.Proofs.Rule.Growth
import IgnoreAtlas.Proofs.Settings.RoundTrip
import IgnoreAtlas.Proofs.Toml.Strings
import IgnoreAtlas.Proofs.Toml.Tables
import IgnoreAtlas.Proofs.Toml.Values
import IgnoreAtlas.Proofs.Tracker.Flat
import IgnoreAtlas.Proofs.Tracker.Growth
import IgnoreAtlas.Proofs.Tracker.Isolation
import IgnoreAtlas.Proofs.Tracker.Record
import IgnoreAtlas.Proofs.Tracker.Sweep
import IgnoreAtlas.Proofs.Tracker.Walk
import IgnoreAtlas.Proofs.Units.Numerals
import IgnoreAtlas.Proofs.Update.Dispatch
import IgnoreAtlas.Proofs.Update.Registration
import IgnoreAtlas.Proofs.Workspace.Addition
import IgnoreAtlas.Proofs.Workspace.Agreement
import IgnoreAtlas.Proofs.Workspace.Answers
import IgnoreAtlas.Proofs.Workspace.Creation
import IgnoreAtlas.Proofs.Workspace.Nested
import IgnoreAtlas.Proofs.Workspace.Ownership
import IgnoreAtlas.Proofs.Workspace.Reachability
import IgnoreAtlas.Proofs.Workspace.Run
import IgnoreAtlas.Proofs.Workspace.Statistics
import IgnoreAtlas.Report.Basic
import IgnoreAtlas.Report.Json
import IgnoreAtlas.Report.Print
import IgnoreAtlas.Repository.Basic
import IgnoreAtlas.Repository.Collection
import IgnoreAtlas.Repository.Opening
import IgnoreAtlas.Repository.Settings
import IgnoreAtlas.Rule.Chain
import IgnoreAtlas.Rule.Line
import IgnoreAtlas.Rule.Source
import IgnoreAtlas.Settings.Basic
import IgnoreAtlas.Settings.File
import IgnoreAtlas.Settings.Json
import IgnoreAtlas.Settings.Toml
import IgnoreAtlas.Text
import IgnoreAtlas.Toml.Assembly
import IgnoreAtlas.Toml.Basic
import IgnoreAtlas.Toml.Quoted
import IgnoreAtlas.Toml.Reader
import IgnoreAtlas.Toml.Scalar
import IgnoreAtlas.Toml.Writer
import IgnoreAtlas.Tracker.Basic
import IgnoreAtlas.Tracker.Scan
import IgnoreAtlas.Trouble
import IgnoreAtlas.Units.Duration
import IgnoreAtlas.Units.Size
import IgnoreAtlas.Update.Bus
import IgnoreAtlas.Update.Channel
import IgnoreAtlas.Workspace
