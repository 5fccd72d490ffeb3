import DistSync.Dict
import DistSync.Run
import DistSync.Progress
import DistSync.TermLog
import DistSync.Custody
import DistSync.Copies
import DistSync.Waitlist
import DistSync.Recency
import DistSync.Parts
import DistSync.Clockwise
import DistSync.ReadersWriter
import DistSync.Raft.Wiring
import DistSync.Raft.Node
import DistSync.Raft.Cluster
import DistSync.Raft.Transition
import DistSync.Raft.Handlers
import DistSync.Raft.Votes
import DistSync.Raft.Election
import DistSync.Raft.Replication
import DistSync.Raft.LogStep
import DistSync.Raft.LogMatching
import DistSync.Raft.Snapshot
import DistSync.Raft.Retention
import DistSync.Raft.Completeness
import DistSync.Raft.StateMachine
import DistSync.Raft.Entries
import DistSync.Raft.Integrity
import DistSync.Raft.Proposals
import DistSync.Raft.Durability
import DistSync.Raft.Deployment
import DistSync.Raft.Survivors
import DistSync.Raft.CommitIndex
import DistSync.Raft.Acceptance
import DistSync.Raft.TermOrder
import DistSync.Raft.Campaign
import DistSync.Raft.CatchUp
import DistSync.Locking.WaitForGraph
import DistSync.Locking.Manager
import DistSync.Locking.Table
import DistSync.Locking.Grants
import DistSync.Locking.Refinement
import DistSync.Locking.Holdings
import DistSync.Locking.Queueing
import DistSync.Locking.Deadlock
import DistSync.Locking.CycleSearch
import DistSync.Locking.Abort
import DistSync.Locking.WakeUp
import DistSync.Locking.Expiry
import DistSync.Locking.Checker
import DistSync.Locking.Service
import DistSync.Locking.Denial
import DistSync.Locking.FalseAlarm
import DistSync.Locking.Exclusion
import DistSync.Locking.Replica
import DistSync.Locking.Timeline
import DistSync.Locking.Answers
import DistSync.Locking.ClientView
import DistSync.Locking.Passes
import DistSync.Locking.Patience
import DistSync.Locking.Availability
import DistSync.Locking.CheckerPasses
import DistSync.Queue.Node
import DistSync.Queue.Service
import DistSync.Queue.Transition
import DistSync.Queue.Boxes
import DistSync.Queue.Ledger
import DistSync.Queue.Delivery
import DistSync.Queue.Exchange
import DistSync.Queue.Restart
import DistSync.Queue.Offsets
import DistSync.Queue.Order
import DistSync.Queue.Assignment
import DistSync.Queue.Coverage
import DistSync.Queue.Batch
import DistSync.Queue.Redelivery
import DistSync.Queue.Failure
import DistSync.Queue.Overdue
import DistSync.Queue.Lifetime
import DistSync.Queue.Consumable
import DistSync.Queue.Keys
import DistSync.Queue.HashRing
import DistSync.Cache.Store
import DistSync.Cache.LRU
import DistSync.Cache.Buckets
import DistSync.Cache.LFU
import DistSync.Cache.Node
import DistSync.Cache.Local
import DistSync.Cache.Completion
import DistSync.Cache.Eviction
import DistSync.Cache.Cluster
import DistSync.Cache.Transition
import DistSync.Cache.Addressing
import DistSync.Cache.Values
import DistSync.Cache.Ownership
import DistSync.Cache.Serial
import DistSync.Cache.Sequential
import DistSync.Cache.Answered
import DistSync.Cache.Provenance
import DistSync.Cache.Timeouts
import DistSync.Detector.Phi
import DistSync.Detector.FailureDetector
import DistSync.Detector.CheckLoop
import DistSync.Detector.Suspicion
import DistSync.Detector.Heartbeats
