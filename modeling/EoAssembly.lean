import EoAssembly.Build.Assembly
import EoAssembly.Build.Discovered
import EoAssembly.Build.Optimized
import EoAssembly.Build.Parsed
import EoAssembly.Build.Pulled
import EoAssembly.Build.Registered
import EoAssembly.Build.Workspace
import EoAssembly.Catalog.Basic
import EoAssembly.Catalog.Codec
import EoAssembly.Catalog.Record
import EoAssembly.Command.Escape
import EoAssembly.Command.Filter
import EoAssembly.Command.Parser
import EoAssembly.Command.Program
import EoAssembly.Command.Script
import EoAssembly.Command.Shell
import EoAssembly.Command.Utility
import EoAssembly.CommandLine.Action
import EoAssembly.CommandLine.Arguments
import EoAssembly.CommandLine.Completion
import EoAssembly.CommandLine.Instant
import EoAssembly.CommandLine.Report
import EoAssembly.CommandLine.Run
import EoAssembly.CommitHash.Listing
import EoAssembly.CommitHash.Short
import EoAssembly.CommitHash.Slot
import EoAssembly.CommitHash.Table
import EoAssembly.Disk
import EoAssembly.Document.Basic
import EoAssembly.Document.Editor
import EoAssembly.Document.Names
import EoAssembly.Failure
import EoAssembly.Git.Client
import EoAssembly.Git.Object
import EoAssembly.Git.Repository
import EoAssembly.Git.Sha1
import EoAssembly.Glob
import EoAssembly.Json.Printer
import EoAssembly.Json.Reader
import EoAssembly.Json.Token
import EoAssembly.Json.Value
import EoAssembly.Main
import EoAssembly.Native.Build
import EoAssembly.Native.Library
import EoAssembly.Native.Manifest
import EoAssembly.Native.Output
import EoAssembly.Native.Quoted
import EoAssembly.Native.Registry
import EoAssembly.Native.Reply
import EoAssembly.ObjectName
import EoAssembly.ObjectStore.Basic
import EoAssembly.Ordered
import EoAssembly.Pass.FloatUp
import EoAssembly.Pass.Markers
import EoAssembly.Pass.References
import EoAssembly.Pass.Sequence
import EoAssembly.Path
import EoAssembly.Project.CacheRoot
import EoAssembly.Project.Dependency
import EoAssembly.Project.File
import EoAssembly.Project.Settings
import EoAssembly.Terminal
import EoAssembly.Text.Blank
import EoAssembly.Text.Fingerprint
import EoAssembly.Text.Hex
import EoAssembly.Text.Lines
import EoAssembly.Text.Pieces
import EoAssembly.Text.Utf8
import EoAssembly.Url
import EoAssembly.Version
import EoAssembly.Xml.Content
import EoAssembly.Xml.Event
import EoAssembly.Xml.Name
import EoAssembly.Xml.Printer
import EoAssembly.Xml.Reader
import EoAssembly.Yaml.Cursor
import EoAssembly.Yaml.Node
import EoAssembly.Yaml.Scalar
import EoAssembly.Yaml.Scanner
import EoAssembly.Proofs.Build.Closure
import EoAssembly.Proofs.Build.Policy
import EoAssembly.Proofs.Build.Repeating
import EoAssembly.Proofs.Catalog.Ledger
import EoAssembly.Proofs.Pass.ScopeKept
import EoAssembly.Proofs.Build.Advancing
import EoAssembly.Proofs.Build.Answering
import EoAssembly.Proofs.Build.Refreshing
import EoAssembly.Proofs.Build.Confined
import EoAssembly.Proofs.Build.Depot
import EoAssembly.Proofs.Build.Logged
import EoAssembly.Proofs.Build.Spelling
import EoAssembly.Proofs.Native.Dispatch
import EoAssembly.Proofs.Build.Arranged
import EoAssembly.Proofs.Native.Rebuilt
import EoAssembly.Proofs.Build.Selected
import EoAssembly.Proofs.ObjectStore.Inside
import EoAssembly.Proofs.ObjectStore.Checkout
import EoAssembly.Pass.FloatSteps
import EoAssembly.Proofs.Document.Elements
import EoAssembly.Proofs.Pass.Declared
import EoAssembly.Proofs.Pass.Midway
import EoAssembly.Proofs.Pass.InPlace
import EoAssembly.Proofs.Pass.Repeated
import EoAssembly.Proofs.Build.Scanned
import EoAssembly.Proofs.Build.Surveyed
import EoAssembly.Proofs.Build.Rescanned
import EoAssembly.Proofs.Pass.Identified
import EoAssembly.Proofs.Build.Attempted
import EoAssembly.Proofs.Build.Reordered
import EoAssembly.Proofs.Build.Marking
import EoAssembly.Proofs.Build.Attempts
import EoAssembly.Proofs.Build.Scheduled
import EoAssembly.Proofs.Build.Pinning
import EoAssembly.Proofs.CommitHash.Listed
import EoAssembly.Proofs.Native.Mirrored
import EoAssembly.Proofs.Native.Modules
import EoAssembly.Proofs.Build.Recovering
import EoAssembly.Proofs.Build.Canonical
import EoAssembly.Proofs.Native.Replies
import EoAssembly.Proofs.CommitHash.Sharing
