import BuildCache.Artifact
import BuildCache.Binary64
import BuildCache.Blake3
import BuildCache.Build.Basic
import BuildCache.Build.Board
import BuildCache.Build.Error
import BuildCache.Build.Flight
import BuildCache.Build.Publication
import BuildCache.Build.Report
import BuildCache.Build.Run
import BuildCache.Build.Schedule
import BuildCache.Bytes
import BuildCache.Checksum
import BuildCache.Config
import BuildCache.Config.Toml
import BuildCache.Derivation
import BuildCache.Digest
import BuildCache.Digest.Json
import BuildCache.Disk
import BuildCache.Duration
import BuildCache.Environment
import BuildCache.Graph.Basic
import BuildCache.Graph.Cycle
import BuildCache.Graph.Order
import BuildCache.Graph.Reach
import BuildCache.Hex
import BuildCache.Index
import BuildCache.Json.Basic
import BuildCache.Json.Parser
import BuildCache.Json.Printer
import BuildCache.KeyMap
import BuildCache.NameMap
import BuildCache.Proofs.Artifact
import BuildCache.Proofs.Artifact.Damage
import BuildCache.Proofs.Artifact.Framing
import BuildCache.Proofs.Artifact.Memory
import BuildCache.Proofs.Binary64
import BuildCache.Proofs.Build.Board
import BuildCache.Proofs.Build.Cancellation
import BuildCache.Proofs.Build.Compile
import BuildCache.Proofs.Build.Course
import BuildCache.Proofs.Build.Delivered
import BuildCache.Proofs.Build.Flight
import BuildCache.Proofs.Build.Invariant
import BuildCache.Proofs.Build.Keys
import BuildCache.Proofs.Build.Order
import BuildCache.Proofs.Build.Reuse
import BuildCache.Proofs.Build.Run
import BuildCache.Proofs.Build.Schedule
import BuildCache.Proofs.Build.Served
import BuildCache.Proofs.Build.Share
import BuildCache.Proofs.Build.Sound
import BuildCache.Proofs.Build.Step
import BuildCache.Proofs.Build.Stored
import BuildCache.Proofs.Build.Termination
import BuildCache.Proofs.Build.Transparent
import BuildCache.Proofs.Build.Verdict
import BuildCache.Proofs.Bytes
import BuildCache.Proofs.Checksum
import BuildCache.Proofs.Derivation
import BuildCache.Proofs.Digest
import BuildCache.Proofs.Disk
import BuildCache.Proofs.Disk.Tidy
import BuildCache.Proofs.Graph.Accepted
import BuildCache.Proofs.Graph.Acyclic
import BuildCache.Proofs.Graph.Cycle
import BuildCache.Proofs.Graph.Declared
import BuildCache.Proofs.Graph.Dependents
import BuildCache.Proofs.Graph.Frontier
import BuildCache.Proofs.Graph.Insertion
import BuildCache.Proofs.Graph.Least
import BuildCache.Proofs.Graph.Numbered
import BuildCache.Proofs.Graph.Order
import BuildCache.Proofs.Graph.Reach
import BuildCache.Proofs.Graph.Search
import BuildCache.Proofs.Hex
import BuildCache.Proofs.Index
import BuildCache.Proofs.Json
import BuildCache.Proofs.KeyMap
import BuildCache.Proofs.NameMap
import BuildCache.Proofs.Plan
import BuildCache.Proofs.Recency
import BuildCache.Proofs.Recency.Checked
import BuildCache.Proofs.Recency.Eviction
import BuildCache.Proofs.Recency.Plain
import BuildCache.Proofs.Remote.Address
import BuildCache.Proofs.Remote.Calls
import BuildCache.Proofs.Remote.Configured
import BuildCache.Proofs.Remote.FailSoft
import BuildCache.Proofs.Remote.Reliable
import BuildCache.Proofs.Remote.Retry
import BuildCache.Proofs.Remote.Wait
import BuildCache.Proofs.Store.Calls
import BuildCache.Proofs.Store.Control
import BuildCache.Proofs.Store.Deletion
import BuildCache.Proofs.Store.Files
import BuildCache.Proofs.Store.Heal
import BuildCache.Proofs.Store.Interleaving
import BuildCache.Proofs.Store.Joint
import BuildCache.Proofs.Store.Layout
import BuildCache.Proofs.Store.Left
import BuildCache.Proofs.Store.Lru
import BuildCache.Proofs.Store.Mirrors
import BuildCache.Proofs.Store.Opening
import BuildCache.Proofs.Store.Phases
import BuildCache.Proofs.Store.Refinement
import BuildCache.Proofs.Store.Reopen
import BuildCache.Proofs.Store.Scan
import BuildCache.Proofs.Store.Sound
import BuildCache.Proofs.Store.Stowed
import BuildCache.Proofs.Store.Tracking
import BuildCache.Proofs.Store.Undo
import BuildCache.Proofs.Timestamp
import BuildCache.Proofs.Timestamp.Cut
import BuildCache.Proofs.Varint
import BuildCache.Recency
import BuildCache.Remote.Address
import BuildCache.Remote.Availability
import BuildCache.Remote.Client
import BuildCache.Remote.Credential
import BuildCache.Remote.Error
import BuildCache.Remote.Http
import BuildCache.Remote.Memory
import BuildCache.Remote.Retry
import BuildCache.Remote.Script
import BuildCache.Remote.Timer
import BuildCache.Remote.Wait
import BuildCache.Result
import BuildCache.Source
import BuildCache.Store
import BuildCache.Text.Blank
import BuildCache.Text.CodeRange
import BuildCache.Text.DefaultIgnorable
import BuildCache.Text.GraphemeExtend
import BuildCache.Text.Quoted
import BuildCache.Text.Unprintable
import BuildCache.Timestamp
import BuildCache.Timestamp.Text
import BuildCache.Toml.Basic
import BuildCache.Toml.Lexical
import BuildCache.Toml.Number
import BuildCache.Toml.Parser
import BuildCache.Varint
