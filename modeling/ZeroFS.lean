import ZeroFS.Lib.Machine
import ZeroFS.Types
import ZeroFS.Lib.Table
import ZeroFS.Lib.Forest
import ZeroFS.Lib.Atomic
import ZeroFS.Quota
import ZeroFS.Inode
import ZeroFS.Namespace.Store
import ZeroFS.Namespace.Ops
import ZeroFS.Namespace.Consistent
import ZeroFS.Namespace.Preserve
import ZeroFS.Namespace.Unlink
import ZeroFS.Namespace.Txn
import ZeroFS.Namespace.Rename
import ZeroFS.Namespace.Run
import ZeroFS.Namespace.Tree
import ZeroFS.Namespace.Threads
import ZeroFS.Namespace.TreeRun
import ZeroFS.Extent.Edits
import ZeroFS.Pipeline.Calls
import ZeroFS.Pipeline.Model
import ZeroFS.Pipeline.Stage
import ZeroFS.Pipeline.CallOk
import ZeroFS.Pipeline.Stepped
import ZeroFS.Pipeline.Separated
import ZeroFS.Pipeline.Ordered
import ZeroFS.Lib.Updates
import ZeroFS.Pipeline.Stored
import ZeroFS.Pipeline.Overlay
import ZeroFS.Pipeline.View
import ZeroFS.Pipeline.States
import ZeroFS.Pipeline.Bounded
import ZeroFS.Pipeline.Counters
import ZeroFS.Pipeline.Exact
import ZeroFS.Pipeline.Steady
import ZeroFS.Pipeline.EndOfFile
import ZeroFS.Extent.SparseFile
import ZeroFS.Pipeline.Tail
import ZeroFS.Pipeline.Bytes
import ZeroFS.Pipeline.Linear
import ZeroFS.Pipeline.Survive
import ZeroFS.Pipeline.Accounts
import ZeroFS.Replication.Lease
import ZeroFS.Dedup.Ledger
import ZeroFS.Dedup.Counted
import ZeroFS.Dedup.ExactlyOnce
import ZeroFS.Dedup.Retract
import ZeroFS.Commit.Watermark
import ZeroFS.Commit.Shards
import ZeroFS.Commit.Usage
import ZeroFS.Commit.Worker
import ZeroFS.Lib.Register
import ZeroFS.Replication.LeaderRecord
import ZeroFS.Replication.SingleOwner
import ZeroFS.Dedup.Protect
import ZeroFS.Handle.Model
import ZeroFS.Namespace.Locked
import ZeroFS.Handle.Lifetime
import ZeroFS.Handle.Reclaim
import ZeroFS.Handle.Drain
import ZeroFS.Writeback.Overlay
import ZeroFS.Writeback.Drain
import ZeroFS.Writeback.Replay
import ZeroFS.Writeback.Stages
import ZeroFS.Writeback.Visible
import ZeroFS.Writeback.Serve
import ZeroFS.Writeback.Transparent
import ZeroFS.Lib.Disk
import ZeroFS.Writeback.Containers
import ZeroFS.Writeback.Recovery
import ZeroFS.Volatile.Overlay
import ZeroFS.Volatile.File
import ZeroFS.Volatile.Readable
import ZeroFS.Volatile.Once
import ZeroFS.Fence.Gate
import ZeroFS.Fence.Barrier
import ZeroFS.Fence.Admission
import ZeroFS.Fence.Progress
import ZeroFS.Extent.Arith
import ZeroFS.Ninep.Fids
import ZeroFS.Ninep.Rename
import ZeroFS.Ninep.Locks
import ZeroFS.Lib.Fifo
import ZeroFS.Mutation.RawBudget
import ZeroFS.Coordination.Admission
import ZeroFS.Writeback.Pacing
import ZeroFS.FrameCodec
import ZeroFS.KeyedLocks
import ZeroFS.Extent.Batches
import ZeroFS.Nbd
