import PersistX.Common
import PersistX.Wal.Record
import PersistX.Wal.History
import PersistX.Wal.Slots
import PersistX.Page.Interface
import PersistX.Page.SlotPage
import PersistX.Page.Layout
import PersistX.Page.Laws
import PersistX.Lib.Bytes
import PersistX.Lib.Transition
import PersistX.Aries.LogManager
import PersistX.Aries.Analysis
import PersistX.Aries.PageState
import PersistX.Aries.System
import PersistX.Aries.Pool
import PersistX.Aries.Invariant
import PersistX.Aries.Preservation
import PersistX.Aries.Rollback
import PersistX.Aries.Checkpoint
import PersistX.Aries.Recovery
import PersistX.Aries.Correctness
import PersistX.Aries.Runs
import PersistX.Aries.CrashRecovery
import PersistX.Aries.CheckpointCrash
import PersistX.Aries.Interruption
import PersistX.Aries.FromCheckpoint
import PersistX.Aries.FuzzyCheckpoint
import PersistX.Lib.Codec
import PersistX.Log.LogRecord
import PersistX.Log.LogManager
import PersistX.Log.TornTail
import PersistX.Lib.Separated
import PersistX.Btree.Node
import PersistX.Btree.Index
import PersistX.Log.Sequence
import PersistX.Pool.BufferManager
import PersistX.Pool.Representation
import PersistX.Pool.WriteAhead
import PersistX.Pool.Transparency
import PersistX.Page.Compact
import PersistX.Page.SlotMap
import PersistX.Wal.Compensation
import PersistX.Aries.ExactlyOnce
import PersistX.Aries.SlotReuse
import PersistX.Txn.Rollback
import PersistX.Page.DataPage
import PersistX.Shell.Commands
import PersistX.Shell.Operations
import PersistX.Shell.Correspondence
import PersistX.Shell.OneToOne
import PersistX.Pool.WriteFailure
import PersistX.Pool.CleanFrames
import PersistX.Pool.FreshPages
import PersistX.Log.WriteFailure
import PersistX.Page.Restore
import PersistX.Shell.AllOrNothing
import PersistX.Btree.Tree
import PersistX.Btree.Layout
import PersistX.Btree.Map
import PersistX.Btree.Cascade
import PersistX.Btree.Insert
import PersistX.Btree.ParentPointers
import PersistX.Aries.StableStorage
import PersistX.Btree.SmallPool
import PersistX.Page.ReadSafety
import PersistX.Log.Codec
import PersistX.Log.ReadSafety
import PersistX.Lib.Counted
import PersistX.Log.Checkpoint
import PersistX.Lib.LinkedList
import PersistX.Pool.Replacer
import PersistX.Pool.EvictionOrder
import PersistX.Lib.Rows
import PersistX.Btree.LeafBytes
import PersistX.Btree.InternalBytes
import PersistX.Shell.Changes
import PersistX.Shell.Linked
import PersistX.Shell.AbortAnswers
import PersistX.Shell.Stages
import PersistX.Shell.Announced
import PersistX.Aries.Replay
import PersistX.Page.Tighter
import PersistX.Aries.Mirror
import PersistX.Aries.FromFiles
import PersistX.Shell.Session
import PersistX.Shell.Represents
import PersistX.Shell.Upkeep
import PersistX.Shell.Running
import PersistX.Shell.Transactions
import PersistX.Shell.Restart
import PersistX.Shell.Availability
import PersistX.Btree.Calls
import PersistX.Shell.OverTree
import PersistX.Lib.Decimal
import PersistX.Shell.CommandLine
import PersistX.Shell.Typing
import PersistX.Lib.File
import PersistX.Disk.DiskManager
import PersistX.Disk.UnderPool
import PersistX.Shell.CleanExit
