import Skeg.Core.Cache
import Skeg.Core.Equiv.Accounting
import Skeg.Core.Equiv.Applying
import Skeg.Core.Equiv.Budget
import Skeg.Core.Equiv.Cache
import Skeg.Core.Equiv.Coherence
import Skeg.Core.Equiv.Compacting
import Skeg.Core.Equiv.Concurrency
import Skeg.Core.Equiv.CrashCut
import Skeg.Core.Equiv.File
import Skeg.Core.Equiv.Frame
import Skeg.Core.Equiv.GroupCommit
import Skeg.Core.Equiv.Layout
import Skeg.Core.Equiv.MapModel
import Skeg.Core.Equiv.Open
import Skeg.Core.Equiv.Reclamation
import Skeg.Core.Equiv.Record
import Skeg.Core.Equiv.Recovery
import Skeg.Core.Equiv.Refine
import Skeg.Core.Equiv.Reopen
import Skeg.Core.Equiv.Runs
import Skeg.Core.Equiv.Segment
import Skeg.Core.Equiv.Sequential
import Skeg.Core.Equiv.Simulation
import Skeg.Core.Equiv.SnapshotFile
import Skeg.Core.Equiv.Snapshots
import Skeg.Core.Equiv.TenantDisk
import Skeg.Core.Equiv.Text
import Skeg.Core.Equiv.Writing
import Skeg.Core.GroupCommit
import Skeg.Core.Hashes
import Skeg.Core.Record
import Skeg.Core.Recovery
import Skeg.Core.Sequential
import Skeg.Core.Text
import Skeg.Core.VLog
import Skeg.Lib.Files
import Skeg.Lib.FiniteMap
import Skeg.Lib.Incremental
import Skeg.Lib.Interaction
import Skeg.Lib.Lsm
import Skeg.Lib.SegLog.Machine
import Skeg.Lib.SegLog.Order
import Skeg.Lib.SegLog.Reclaim
import Skeg.Lib.SegLog.Scan
import Skeg.Lib.SegLog.Sequential
import Skeg.Lib.Transition
import Skeg.Resp3.Decimal
import Skeg.Resp3.Equiv.Downgrade
import Skeg.Resp3.Equiv.Grammar
import Skeg.Resp3.Equiv.Parser
import Skeg.Resp3.Equiv.RoundTrip
import Skeg.Resp3.Equiv.Stream
import Skeg.Resp3.Equiv.Unfinished
import Skeg.Resp3.Frame
import Skeg.Resp3.Parser
import Skeg.Server.Equiv.DiskQuota
import Skeg.Server.Equiv.Erase
import Skeg.Server.Equiv.Filter
import Skeg.Server.Equiv.FilterDepth
import Skeg.Server.Equiv.FilterGrammar
import Skeg.Server.Equiv.Gather
import Skeg.Server.Equiv.Isolation
import Skeg.Server.Equiv.Payload
import Skeg.Server.Equiv.PayloadKeys
import Skeg.Server.Equiv.Ranges
import Skeg.Server.Equiv.Reserve
import Skeg.Server.Erase
import Skeg.Server.FilterParser
import Skeg.Server.Kv
import Skeg.Server.Payload
import Skeg.Server.Registry
import Skeg.Server.Shard
import Skeg.Server.ShardSet
import Skeg.Simd.Equiv.Block
import Skeg.Simd.Equiv.Distance
import Skeg.Simd.Equiv.Rotation
import Skeg.Tenant.Equiv.AuthStore
import Skeg.Tenant.Equiv.Limits
import Skeg.Tenant.Equiv.Quota
import Skeg.Tenant.Equiv.Root
import Skeg.Vector.Equiv.Assoc
import Skeg.Vector.Equiv.Background
import Skeg.Vector.Equiv.Block
import Skeg.Vector.Equiv.Build
import Skeg.Vector.Equiv.Crash
import Skeg.Vector.Equiv.FailedBuild
import Skeg.Vector.Equiv.Flat
import Skeg.Vector.Equiv.Format
import Skeg.Vector.Equiv.Layers
import Skeg.Vector.Equiv.Live
import Skeg.Vector.Equiv.Maintain
import Skeg.Vector.Equiv.Open
import Skeg.Vector.Equiv.Opened
import Skeg.Vector.Equiv.Patch
import Skeg.Vector.Equiv.Probe
import Skeg.Vector.Equiv.Quant
import Skeg.Vector.Equiv.ScoreIds
import Skeg.Vector.Equiv.Search
import Skeg.Vector.Equiv.Survivors
import Skeg.Vector.Equiv.Swap
import Skeg.Vector.Equiv.TierCache
import Skeg.Vector.Equiv.TornWal
import Skeg.Vector.Equiv.Tq1Control
import Skeg.Vector.Equiv.Views
import Skeg.Vector.Equiv.Visited
import Skeg.Vector.Equiv.Wal
import Skeg.Vector.Equiv.WalReads
import Skeg.Vector.Exact
import Skeg.Vector.Flat
import Skeg.Vector.Format
import Skeg.Vector.Index
import Skeg.Vector.Ivf
import Skeg.Vector.Machine
import Skeg.Vector.Maintain
import Skeg.Vector.Numerics
import Skeg.Vector.Search
import Skeg.Vector.Wal
import Skeg.Vector.Walk
