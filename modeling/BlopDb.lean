import BlopDb.Lib.Bytes
import BlopDb.Lib.OrdMap
import BlopDb.Lib.Fault
import BlopDb.Lib.Safe
import BlopDb.Lib.ForwardFlow
import BlopDb.Lib.Hash
import BlopDb.Storage.Basic
import BlopDb.Storage.Encoding
import BlopDb.Storage.Mvcc
import BlopDb.Storage.MvccOrder
import BlopDb.Storage.MvccSpec
import BlopDb.Vm.Value
import BlopDb.Vm.TypeCodec
import BlopDb.Vm.ValueCodec
import BlopDb.Vm.KeyCodec
import BlopDb.Vm.Operations
import BlopDb.Vm.OperationsSafe
import BlopDb.Vm.Program
import BlopDb.Vm.ProgramSound
import BlopDb.Vm.Database
import BlopDb.Vm.DatabaseSpec
import BlopDb.Vm.Access
import BlopDb.Vm.AccessAnalysis
import BlopDb.Vm.Runtime
import BlopDb.Vm.RuntimeSafe
import BlopDb.Vm.RuntimeSound
import BlopDb.Vm.VerifierSound
import BlopDb.Vm.Catalogue
import BlopDb.Vm.Outcome
import BlopDb.Vm.OutcomeCodec
import BlopDb.Vm.Prepare
import BlopDb.Vm.History
import BlopDb.Vm.HistorySound
import BlopDb.Lib.Partition
import BlopDb.Storage.Page
import BlopDb.Storage.BTree
import BlopDb.Storage.BTreeSpec
import BlopDb.Storage.BTreeRead
import BlopDb.Storage.BTreeScan
import BlopDb.Storage.BTreeEdit
import BlopDb.Storage.BTreeUpdate
import BlopDb.Storage.BTreeRefines
import BlopDb.Storage.Collect
import BlopDb.Storage.CollectSpec
import BlopDb.Storage.Apply
import BlopDb.Vm.AccessCover
import BlopDb.Vm.RuntimeStep
import BlopDb.Vm.AccessSound
import BlopDb.Vm.Noninterference
import BlopDb.Vm.Install
import BlopDb.Vm.Validate
import BlopDb.Vm.CatalogueSpec
import BlopDb.Vm.Records
import BlopDb.Vm.Lifecycle
import BlopDb.Vm.Replay
import BlopDb.Vm.CatalogueSound
import BlopDb.Vm.Ledger
import BlopDb.Vm.ValidateSound
import BlopDb.Lib.Slice
import BlopDb.Lib.Wire
import BlopDb.Lib.Greedy
import BlopDb.Storage.Metadata
import BlopDb.Storage.MetadataSpec
import BlopDb.Storage.Wal
import BlopDb.Storage.Log
import BlopDb.Storage.Recovery
import BlopDb.Storage.Reading
import BlopDb.Storage.Framing
import BlopDb.Storage.Appending
import BlopDb.Storage.Layout
import BlopDb.Storage.Content
import BlopDb.Storage.LogRun
import BlopDb.Storage.LogValidation
import BlopDb.Storage.LogValidationSound
import BlopDb.Storage.BTreeSeek
import BlopDb.Storage.PageView
import BlopDb.Vm.SchemaAgreement
import BlopDb.Vm.KeyOrder
import BlopDb.Vm.OutcomeExact
import BlopDb.Vm.ManifestCodec
import BlopDb.Engine.Envelope
import BlopDb.Engine.Record
import BlopDb.Engine.RecordCodec
import BlopDb.Engine.Exchange
import BlopDb.Engine.ExchangeCodec
import BlopDb.Engine.BatchSize
import BlopDb.Engine.Feed
import BlopDb.Engine.Source
import BlopDb.Engine.SourceSound
import BlopDb.Engine.Visible
import BlopDb.Engine.FeedSound
import BlopDb.Engine.Polling
import BlopDb.Storage.PageReads
import BlopDb.Storage.Copy
import BlopDb.Storage.Compaction
import BlopDb.Storage.PageFiles
import BlopDb.Engine.Rows
import BlopDb.Engine.Snapshot
import BlopDb.Engine.Machine
import BlopDb.Engine.SnapshotReads
import BlopDb.Engine.SnapshotSound
import BlopDb.Storage.BTreeValid
import BlopDb.Lib.Buffer
import BlopDb.Lib.Fields
import BlopDb.Lib.InPlace
import BlopDb.Lib.Lockstep
import BlopDb.Lib.Sizes
import BlopDb.Macros.Bytecode
import BlopDb.Macros.Assembly
import BlopDb.Macros.Bind
import BlopDb.Macros.Template
import BlopDb.Macros.Binding
import BlopDb.Macros.Syntax
import BlopDb.Macros.CompileExpr
import BlopDb.Macros.Compile
import BlopDb.Macros.Reading
import BlopDb.Macros.Invariant
import BlopDb.Storage.PageCodec
import BlopDb.Storage.PageLayout
import BlopDb.Storage.PageCodecSound
import BlopDb.Storage.PageReader
import BlopDb.Storage.PageContent
import BlopDb.Storage.BTreeExact
import BlopDb.Storage.MetadataCodec
import BlopDb.Storage.MetadataExact
import BlopDb.Storage.MvccExact
import BlopDb.Storage.PageCache
import BlopDb.Storage.PageCacheSound
import BlopDb.Storage.StateScan
import BlopDb.Vm.RuntimeInPlace
import BlopDb.Vm.Accounting
import BlopDb.Vm.ManifestNormal
import BlopDb.Vm.MergedScan
import BlopDb.Vm.Resources
import BlopDb.Vm.ResourcesExact
import BlopDb.Vm.ResourcesCover
import BlopDb.Vm.ScanIterator
import BlopDb.Macros.ExprSound
import BlopDb.Macros.StatementSound
import BlopDb.Macros.Declarations
import BlopDb.Macros.Agreement
import BlopDb.Lib.Regions
import BlopDb.Macros.Shapes
import BlopDb.Macros.Verified
import BlopDb.Macros.ExprVerified
import BlopDb.Macros.StatementVerified
import BlopDb.Macros.ProgramVerified
import BlopDb.Macros.Accepted
import BlopDb.Vm.Administration
import BlopDb.Engine.Execution
import BlopDb.Engine.Serial
import BlopDb.Engine.Admission
import BlopDb.Storage.Pruning
import BlopDb.Engine.Scheduler
import BlopDb.Engine.Course
import BlopDb.Engine.AdmissionSound
import BlopDb.Engine.Assigned
import BlopDb.Engine.Flights
import BlopDb.Engine.Registration
import BlopDb.Engine.Completion
import BlopDb.Engine.Tickets
import BlopDb.Engine.Logical
import BlopDb.Engine.Settlement
import BlopDb.Engine.Tracking
import BlopDb.Engine.SchedulerSound
import BlopDb.Engine.SchedulerRuns
import BlopDb.Engine.Capacity
import BlopDb.Engine.SchedulerProgress
import BlopDb.Engine.Work
import BlopDb.Engine.Past
import BlopDb.Engine.Recovery
import BlopDb.Vm.Counts
import BlopDb.Engine.RecoverySound
import BlopDb.Engine.RecoveryRuns
