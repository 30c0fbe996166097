import Doq.Lib.FinMap
import Doq.Lib.Go
import Doq.Lib.Heap
import Doq.Memory.PriorityQueue
import Doq.Memory.PriorityQueueProofs
import Doq.WeightedAvl
import Doq.WeightedAvlProofs
import Doq.Lib.Dotted
import Doq.Memory.RoundRobin
import Doq.Memory.RoundRobinTree
import Doq.Memory.RoundRobinReady
import Doq.Memory.Weighted
import Doq.Memory.WeightedProofs
import Doq.Memory.MemoryQueue
import Doq.Memory.MemoryQueueProofs
import Doq.Entity
import Doq.Storage.Store
import Doq.Queue.Queue
import Doq.Queue.Manager
import Doq.Raft.Fsm
import Doq.Raft.Snapshot
import Doq.Queue.Safety
import Doq.Raft.Handle
import Doq.Raft.Safety
import Doq.Raft.Reenqueue
import Doq.Raft.Step
import Doq.Raft.Deadlines
import Doq.Lib.Listed
import Doq.Queue.Broker
import Doq.Queue.Refine
import Doq.Raft.Track
import Doq.Raft.Partition
import Doq.Raft.Delivery
import Doq.Queue.Sweep
import Doq.Memory.WeightedFairness
import Doq.Memory.RoundRobinRuns
import Doq.Memory.RoundRobinFairness
import Doq.Raft.StoreFaults
import Doq.Raft.Isolation
import Doq.Raft.Restore
import Doq.Raft.Recreate
import Doq.Raft.PointInTime
import Doq.Queue.TwoStores
import Doq.Raft.Replay
import Doq.Raft.Resume
import Doq.Raft.DeliveryLimit
import Doq.Memory.RoundRobinGroups
import Doq.Memory.WeightedTotal
import Doq.Memory.RoundRobinDrain
import Doq.Memory.MemoryQueuePicks
import Doq.Raft.Groups
import Doq.Raft.Order
import Doq.Raft.LocalInputs
import Doq.Grpc.Server
import Doq.Raft.Leader
import Doq.Memory.MemoryQueueWakes
import Doq.Queue.Wakes
import Doq.Raft.Wakeups
import Doq.Memory.RoundRobinSchedule
import Doq.Memory.MemoryQueueTwins
import Doq.Lib.Reader
import Doq.Memory.RoundRobinDelete
import Doq.Storage.Framing
import Doq.Memory.DelayedWait
import Doq.Memory.PriorityQueueRuns
import Doq.WeightedAvlMap
import Doq.Memory.RoundRobinRebuild
import Doq.Raft.Twins
import Doq.Raft.Equivalence
import Doq.Lib.Replication
import Doq.Raft.Cluster
import Doq.Queue.Writes
import Doq.Raft.Ledger
import Doq.Raft.Provenance
import Doq.Raft.Limits
import Doq.Cluster.Discovery
import Doq.Raft.Membership
import Doq.Cluster.Formation
import Doq.Grpc.Forwarding
import Doq.Grpc.Streams
import Doq.Grpc.Answers
import Doq.Raft.Listing
import Doq.Grpc.Proxy
import Doq.Grpc.Producers
import Doq.Grpc.Waiting
import Doq.Raft.RestoreBytes
