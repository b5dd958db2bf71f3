import CacheAudit.Bytes
import CacheAudit.Capture.Basic
import CacheAudit.Capture.Steps
import CacheAudit.CommandLine.Arguments
import CacheAudit.CommandLine.Execution
import CacheAudit.CommandLine.Identifier
import CacheAudit.CommandLine.Inputs
import CacheAudit.Configuration.Basic
import CacheAudit.Configuration.Toml
import CacheAudit.Dataset.Csv
import CacheAudit.Dataset.Encoding
import CacheAudit.Dataset.Keyed
import CacheAudit.Dataset.LineLog
import CacheAudit.Dataset.Loading
import CacheAudit.Dataset.Table
import CacheAudit.Dataset.Weight
import CacheAudit.Dataset.Weighted
import CacheAudit.Decimal.Exact
import CacheAudit.Decimal.Fixed
import CacheAudit.Decimal.Reading
import CacheAudit.Decimal.Shortest
import CacheAudit.Digest.Fingerprint
import CacheAudit.Digest.Sha2
import CacheAudit.Disk.Access
import CacheAudit.Disk.Basic
import CacheAudit.Disk.Changes
import CacheAudit.Disk.Walk
import CacheAudit.Duration
import CacheAudit.Failure
import CacheAudit.Halt
import CacheAudit.Journal
import CacheAudit.Json.Basic
import CacheAudit.Json.Parser
import CacheAudit.Json.Raw
import CacheAudit.Json.Reading
import CacheAudit.Main
import CacheAudit.Ordered.Map
import CacheAudit.Ordered.Set
import CacheAudit.Path
import CacheAudit.Problem
import CacheAudit.Proofs.Calls
import CacheAudit.Proofs.Capture.Contents
import CacheAudit.Proofs.Capture.Deadline
import CacheAudit.Proofs.Capture.Fingerprints
import CacheAudit.Proofs.Capture.Result
import CacheAudit.Proofs.Capture.Steps
import CacheAudit.Proofs.Capture.Timeless
import CacheAudit.Proofs.Configuration.Resolution
import CacheAudit.Proofs.Dataset.CellWeights
import CacheAudit.Proofs.Dataset.Encoding
import CacheAudit.Proofs.Dataset.Gathering
import CacheAudit.Proofs.Dataset.History
import CacheAudit.Proofs.Dataset.Loaders
import CacheAudit.Proofs.Dataset.LogLines
import CacheAudit.Proofs.Dataset.TableCells
import CacheAudit.Proofs.Dataset.Totality
import CacheAudit.Proofs.Dataset.Weight
import CacheAudit.Proofs.Dataset.WeightSums
import CacheAudit.Proofs.Decimal.AbsoluteDifference
import CacheAudit.Proofs.Decimal.Digits
import CacheAudit.Proofs.Decimal.Overflow
import CacheAudit.Proofs.Decimal.Packing
import CacheAudit.Proofs.Decimal.Percentage
import CacheAudit.Proofs.Decimal.Rounding
import CacheAudit.Proofs.Decimal.Units
import CacheAudit.Proofs.Decimal.Value
import CacheAudit.Proofs.Digest.Streaming
import CacheAudit.Proofs.Disk.Blocked
import CacheAudit.Proofs.Disk.Directories
import CacheAudit.Proofs.Disk.Entries
import CacheAudit.Proofs.Disk.ForwardPaths
import CacheAudit.Proofs.Disk.Grown
import CacheAudit.Proofs.Disk.Key
import CacheAudit.Proofs.Disk.Listing
import CacheAudit.Proofs.Disk.Lookup
import CacheAudit.Proofs.Disk.NewDirectories
import CacheAudit.Proofs.Disk.Parts
import CacheAudit.Proofs.Disk.RelativeNames
import CacheAudit.Proofs.Disk.Removal
import CacheAudit.Proofs.Disk.Siblings
import CacheAudit.Proofs.Disk.Standing
import CacheAudit.Proofs.Disk.Tree
import CacheAudit.Proofs.Journal
import CacheAudit.Proofs.Json.Records
import CacheAudit.Proofs.Json.RoundTrip
import CacheAudit.Proofs.Json.Tokens
import CacheAudit.Proofs.Ordered.Finite
import CacheAudit.Proofs.Reconciliation.FiniteWeights
import CacheAudit.Proofs.Reconciliation.Groups
import CacheAudit.Proofs.Reconciliation.Mirror
import CacheAudit.Proofs.Reconciliation.Partition
import CacheAudit.Proofs.Reconciliation.Percentages
import CacheAudit.Proofs.Reconciliation.Projection
import CacheAudit.Proofs.Reconciliation.TextLog
import CacheAudit.Proofs.Snapshot.Difference
import CacheAudit.Proofs.Snapshot.Document
import CacheAudit.Proofs.Storage.Frame
import CacheAudit.Proofs.Storage.Interruption
import CacheAudit.Proofs.Storage.ParentDirectories
import CacheAudit.Proofs.Storage.Replace
import CacheAudit.Proofs.Storage.SnapshotFile
import CacheAudit.Proofs.Text.ByteOrder
import CacheAudit.Proofs.Text.Decoding
import CacheAudit.Proofs.Text.Lines
import CacheAudit.Proofs.Text.Lossy
import CacheAudit.Proofs.Timestamp
import CacheAudit.Proofs.Verification.Artifacts
import CacheAudit.Proofs.Verification.Beside
import CacheAudit.Proofs.Verification.Course
import CacheAudit.Proofs.Verification.Crashes
import CacheAudit.Proofs.Verification.Disjointness
import CacheAudit.Proofs.Verification.Document
import CacheAudit.Proofs.Verification.Inconclusive
import CacheAudit.Proofs.Verification.Interleaving
import CacheAudit.Proofs.Verification.Leftovers
import CacheAudit.Proofs.Verification.Members
import CacheAudit.Proofs.Verification.Omissions
import CacheAudit.Proofs.Verification.Progress
import CacheAudit.Proofs.Verification.Recording
import CacheAudit.Proofs.Verification.Report
import CacheAudit.Proofs.Verification.Soundness
import CacheAudit.Proofs.Verification.Success
import CacheAudit.Reconciliation.Members
import CacheAudit.Reconciliation.TextLog
import CacheAudit.Reconciliation.Weights
import CacheAudit.Snapshot.Basic
import CacheAudit.Snapshot.Difference
import CacheAudit.Storage.Replace
import CacheAudit.Storage.Report
import CacheAudit.Storage.SnapshotFile
import CacheAudit.Text.Blank
import CacheAudit.Text.Utf16
import CacheAudit.Text.Utf8
import CacheAudit.Timestamp
import CacheAudit.Verification.Endpoint
import CacheAudit.Verification.Outcome
import CacheAudit.Verification.Plan
import CacheAudit.Verification.Run
import CacheAudit.Verification.Scenarios
import CacheAudit.Verification.Service
