import ChainedBlockStorage.Core.Run
import ChainedBlockStorage.Core.Radix
import ChainedBlockStorage.Core.Versions
import ChainedBlockStorage.Core.Crash
import ChainedBlockStorage.Core.Scan
import ChainedBlockStorage.Core.Positions
import ChainedBlockStorage.Core.Numerals
import ChainedBlockStorage.Storage.Layout
import ChainedBlockStorage.Storage.Atomic
import ChainedBlockStorage.Storage.Alloc
import ChainedBlockStorage.Storage.Tree
import ChainedBlockStorage.Storage.Loops
import ChainedBlockStorage.Storage.CopyOnWrite
import ChainedBlockStorage.Storage.Write
import ChainedBlockStorage.Storage.Runs
import ChainedBlockStorage.Storage.Overlay
import ChainedBlockStorage.Storage.PathCopy
import ChainedBlockStorage.Storage.Reclaim
import ChainedBlockStorage.Storage.Open
import ChainedBlockStorage.Storage.CrashSafe
import ChainedBlockStorage.Core.LogChain
import ChainedBlockStorage.Core.Sorted
import ChainedBlockStorage.Tables.ReplayLog
import ChainedBlockStorage.Tables.LogTransfer
import ChainedBlockStorage.Tables.Pruning
import ChainedBlockStorage.Tables.Queues
import ChainedBlockStorage.Chain.Messages
import ChainedBlockStorage.Chain.Checksum
import ChainedBlockStorage.Chain.Node
import ChainedBlockStorage.Chain.Accept
import ChainedBlockStorage.Chain.Step
import ChainedBlockStorage.Chain.WritePath
import ChainedBlockStorage.Chain.CommitPath
import ChainedBlockStorage.Chain.Agreement
import ChainedBlockStorage.Chain.ClientCalls
import ChainedBlockStorage.Chain.Redelivery
import ChainedBlockStorage.Storage.Leaves
import ChainedBlockStorage.Chain.Resend
import ChainedBlockStorage.Storage.Reads
import ChainedBlockStorage.Storage.History
import ChainedBlockStorage.Storage.Frame
import ChainedBlockStorage.Storage.PendingMap
import ChainedBlockStorage.Storage.ChangeList
import ChainedBlockStorage.Storage.Digest
import ChainedBlockStorage.Storage.ChecksumText
import ChainedBlockStorage.Storage.Reopen
import ChainedBlockStorage.Storage.Image
import ChainedBlockStorage.Storage.Sessions
import ChainedBlockStorage.Storage.Space
import ChainedBlockStorage.Chain.Fidelity
import ChainedBlockStorage.Storage.Modified
import ChainedBlockStorage.Storage.Restore
import ChainedBlockStorage.Storage.Race
import ChainedBlockStorage.Chain.Traces
import ChainedBlockStorage.Chain.MidFailure
import ChainedBlockStorage.Chain.Handover
import ChainedBlockStorage.Chain.FirstDelivery
import ChainedBlockStorage.Chain.Join
import ChainedBlockStorage.Chain.Cluster
import ChainedBlockStorage.Chain.ClientWrite
import ChainedBlockStorage.Chain.CommitOnce
import ChainedBlockStorage.Chain.LogOrder
import ChainedBlockStorage.Chain.Replicas
import ChainedBlockStorage.Chain.WriteAck
import ChainedBlockStorage.Chain.TailReads
import ChainedBlockStorage.Chain.Supply
import ChainedBlockStorage.Chain.AckWave
import ChainedBlockStorage.Chain.Drain
import ChainedBlockStorage.Chain.ClientQueue
import ChainedBlockStorage.Chain.TailFailure
import ChainedBlockStorage.Chain.AckRelay
import ChainedBlockStorage.Chain.AtTheLock
import ChainedBlockStorage.Chain.PastAck
import ChainedBlockStorage.Chain.IntNumbers
import ChainedBlockStorage.Chain.RoleChange
import ChainedBlockStorage.Master.Roster
import ChainedBlockStorage.Master.Roles
import ChainedBlockStorage.Master.Rounds
import ChainedBlockStorage.Master.Services
import ChainedBlockStorage.Master.Joins
import ChainedBlockStorage.Master.Addresses
import ChainedBlockStorage.Master.Integration
import ChainedBlockStorage.Master.Locks
import ChainedBlockStorage.Core.Pool
import ChainedBlockStorage.NonAtomic.Volume
import ChainedBlockStorage.NonAtomic.Owners
import ChainedBlockStorage.NonAtomic.DoubleFree
import ChainedBlockStorage.NonAtomic.Reopen
import ChainedBlockStorage.NonAtomic.Mirror
import ChainedBlockStorage.NonAtomic.Answers
import ChainedBlockStorage.NonAtomic.Refines
