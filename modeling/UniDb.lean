import UniDb.Lib.AssocMap
import UniDb.Lib.KeyedFold
import UniDb.Lib.Run
import UniDb.Common.Value
import UniDb.Common.SimpleGraph
import UniDb.Runtime.CommitRegistry
import UniDb.Runtime.L0
import UniDb.Runtime.L0Merge
import UniDb.Runtime.L0View
import UniDb.Runtime.L0Visibility
import UniDb.Runtime.MergeView
import UniDb.Runtime.PublishSequencer
import UniDb.Runtime.Transaction
import UniDb.Runtime.ReplayRefinement
import UniDb.Runtime.LabelIndex
import UniDb.Runtime.Timestamps
import UniDb.Runtime.Admission
import UniDb.Runtime.Wal
import UniDb.Runtime.WalSpans
import UniDb.Runtime.WalFiles
import UniDb.Runtime.L0Manager
import UniDb.Runtime.Flush
import UniDb.Runtime.FlushDurability
import UniDb.Runtime.FlushCoordinator
import UniDb.Lib.SortedList
import UniDb.Storage.MainCsr
import UniDb.Storage.PinnedVersions
import UniDb.Storage.Adjacency
import UniDb.Storage.AdjacencyReads
import UniDb.Storage.BulkGate
import UniDb.Storage.AdjacencyCompaction
import UniDb.Storage.AdjacencyPinned
import UniDb.Storage.Delta
import UniDb.Storage.AdjacencyWarm
import UniDb.Lib.KeyTable
import UniDb.Runtime.ConstraintIndex
import UniDb.Runtime.CommitOverlay
import UniDb.Lib.WriteLog
import UniDb.Storage.DeltaMerge
import UniDb.Storage.DeltaCompaction
import UniDb.Runtime.IdAllocator
import UniDb.Fork.Recovery
import UniDb.Fork.Lifecycle
import UniDb.Lib.Cut
import UniDb.Fork.Stages
import UniDb.Fork.CrashAtomicity
import UniDb.Fork.Tombstones
import UniDb.Fork.RegistryMemory
import UniDb.Fork.Sessions
import UniDb.Fork.Children
import UniDb.Fork.RestoreEpoch
import UniDb.Common.Schema
import UniDb.Fork.SchemaOverlay
import UniDb.Lib.Numbering
import UniDb.Lib.Versioned
import UniDb.Snapshot.Restore
import UniDb.Snapshot.RestoreAtomicity
import UniDb.Lib.MapJoin
import UniDb.Crdt.Types
import UniDb.Crdt.ORSet
import UniDb.Crdt.Merge
import UniDb.Crdt.Updates
import UniDb.Crdt.VCConvergence
import UniDb.Crdt.AddWins
import UniDb.Lib.Components
import UniDb.Locy.Tarjan
import UniDb.Locy.Kahn
import UniDb.Locy.Stratify
import UniDb.Lib.SemiNaive
import UniDb.Locy.Fixpoint
import UniDb.Locy.FactDedup
import UniDb.Locy.Names
import UniDb.Locy.BaseRvSet
import UniDb.Locy.LeastFixpoint
import UniDb.Locy.FoldedDelta
import UniDb.Cypher.Ast
import UniDb.Locy.Program
import UniDb.Locy.BindingPlan
import UniDb.Lib.Dataflow
import UniDb.Lib.BigEndian
import UniDb.Locy.BindingSchedule
import UniDb.Locy.BindingLoop
import UniDb.Locy.BindingOrder
import UniDb.Locy.BindingPermutation
import UniDb.Btic.Codec
import UniDb.Query.PathNfa
import UniDb.Query.PrefixRange
import UniDb.Temporal.DurationText
import UniDb.Temporal.DayNumber
import UniDb.Temporal.CalendarMonths
import UniDb.Query.Arithmetic
import UniDb.Algo.Projection
import UniDb.Algo.Scc
import UniDb.Algo.MaximalCliques
