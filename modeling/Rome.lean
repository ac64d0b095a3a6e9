import Rome.Core.Trans
import Rome.Core.Span
import Rome.Rmalloc.Resource
import Rome.Core.Shelf
import Rome.Rmalloc.Client
import Rome.Rmalloc.LiveBlocks
import Rome.Rmalloc.Reuse
import Rome.Rmalloc.Isolation
import Rome.Core.LinkedTree
import Rome.Core.TreePath
import Rome.Core.SearchPath
import Rome.ATree.Basic
import Rome.ATree.Find
import Rome.ATree.Remove
import Rome.ATree.Insert
import Rome.ATree.Reaugment
import Rome.ATree.SubtreeCount
import Rome.ATree.History
import Rome.Metrics.Summary
import Rome.Metrics.Percentile
import Rome.Metrics.OrderStatistics
import Rome.Channel.Messenger
import Rome.Core.Fifo
import Rome.Channel.Delivery
import Rome.Channel.Slots
import Rome.Conn.Manager
import Rome.Conn.LockUse
import Rome.Conn.Release
import Rome.Conn.LockInv
import Rome.Conn.MutualExclusion
import Rome.Conn.Network
import Rome.Conn.Handshake
import Rome.Conn.HandshakeSteps
import Rome.Conn.Agreement
import Rome.Conn.Progress
import Rome.Metrics.Windows
import Rome.Metrics.Extremes
import Rome.Metrics.Ordered
import Rome.Metrics.Accumulate
import Rome.Metrics.Quantiles
import Rome.Metrics.Reads
import Rome.Core.BinaryHeap
import Rome.FixedHeap.Basic
import Rome.FixedHeap.PriorityQueue
import Rome.FixedHeap.Comparator
import Rome.Core.Ring
import Rome.Coroutine.Scheduler
import Rome.Coroutine.RingInvariant
import Rome.Core.RunQueue
import Rome.Coroutine.RoundRobin
import Rome.Rmalloc.Footprint
import Rome.Rmalloc.Alignment
import Rome.Rmalloc.Mask
import Rome.Core.SendQueue
import Rome.MemoryPool.Client
import Rome.Core.History
import Rome.MemoryPool.Completions
import Rome.MemoryPool.SharedWord
import Rome.MemoryPool.AtomicSwap
import Rome.MemoryPool.Init
import Rome.MemoryPool.KeyExchange
import Rome.Core.Tiling
import Rome.MemoryPool.WorkRequest
import Rome.MemoryPool.ChunkedRead
import Rome.Colosseum.QpsController
import Rome.Colosseum.Throughput
import Rome.Colosseum.Streams
import Rome.Colosseum.WorkloadDriver
import Rome.Colosseum.DriverRuns
import Rome.Colosseum.Ycsb
import Rome.Colosseum.YcsbWellFormed
import Rome.Core.Places
import Rome.ThreadPool.Basic
import Rome.ThreadPool.Drain
import Rome.Datastructure.Bitset
import Rome.Datastructure.MarkedPtr
import Rome.Rdma.RdmaMemory
import Rome.Colosseum.LatestHistory
import Rome.Metrics.Variance
import Rome.Metrics.SmallRanks
import Rome.MemoryPool.RemotePtr
import Rome.Colosseum.DriverStart
import Rome.Conn.Broker
import Rome.Conn.Acks
import Rome.Conn.Shutdown
import Rome.Conn.ShutdownRank
import Rome.Conn.ShutdownCompletes
import Rome.Channel.SendMessage
import Rome.MemoryPool.DoorbellBuild
import Rome.MemoryPool.KillSwitch
import Rome.Colosseum.WeightedStream
import Rome.Colosseum.YcsbRmw
import Rome.Rmalloc.ClassCheck
import Rome.Core.Forest
import Rome.ATree.Destructor
import Rome.Core.RemoteCopy
import Rome.Core.Reorder
import Rome.MemoryPool.BatchEffect
import Rome.MemoryPool.PlainCalls
import Rome.MemoryPool.LockFree
import Rome.Coroutine.RingState
import Rome.Coroutine.Cancel
import Rome.Core.Rounds
import Rome.Gladiators.Coroutines
import Rome.Gladiators.Steps
import Rome.Gladiators.Tokens
import Rome.Gladiators.Safety
import Rome.Gladiators.Rank
import Rome.Gladiators.Completion
import Rome.Core.Carving
import Rome.Rmalloc.Threads
import Rome.Rmalloc.Linearize
import Rome.Rmalloc.ThreadsSafe
import Rome.Rmalloc.WaitFree
import Rome.Rmalloc.Exhaustion
import Rome.MemoryPool.InitCompletes
