import Mathlib.Data.Finset.Card
import DistSync.Dict
import DistSync.TermLog

/-! The state of one `RaftNode` and its handlers. A handler runs without
suspension up to its next real `await`, so each is one function on the node;
what it leaves suspended or scheduled is kept in `calls` and `tasks`. -/
namespace DistSync.Raft
open TermLog

inductive NodeState where
  | follower
  | candidate
  | leader
deriving DecidableEq

/-- Commands are dictionaries; only the leader's own `no_op` matters to Raft. -/
inductive Command (Id Cmd : Type) where
  | noOp (leader : Id)
  | client (command : Cmd)
deriving DecidableEq

structure LogEntry (Id Cmd : Type) where
  term : Nat
  index : Nat
  command : Command Id Cmd
  clientId : Option String := none
  sequenceNum : Nat := 0
deriving DecidableEq

structure RaftState (Id Cmd : Type) where
  currentTerm : Nat := 0
  votedFor : Option Id := none
  log : List (LogEntry Id Cmd) := []

structure VolatileState where
  commitIndex : Nat := 0
  lastApplied : Nat := 0

structure LeaderState (Addr : Type) where
  nextIndex : Dict Addr Nat := ∅
  matchIndex : Dict Addr Nat := ∅

/-- Who awaits a `propose`: `_become_leader`, or some other caller. -/
inductive Caller where
  | becomeLeader
  | client
deriving DecidableEq

/-- A `propose` suspended in `wait_for(future)`; `resolved` is the future's result. -/
structure ProposeCall (Id Cmd : Type) where
  future : Nat
  entry : LogEntry Id Cmd
  caller : Caller
  resolved : Bool := false

/-- The scheduler of a replication task: `propose`, or the heartbeat loop with this identity. -/
inductive Origin where
  | propose
  | heartbeat (loop : Nat)
deriving DecidableEq

/-- Coroutines created with `create_task` or `ensure_future` that have not started. -/
inductive Task (Addr : Type) where
  | replicateToAll
  | replicateToPeer (origin : Origin) (peer : Addr)

/-- `heartbeatTask` is the heartbeat loop that is neither finished nor cancelled.
`fresh` numbers futures and heartbeat loops. Timers are not kept: an election
timeout may strike any node that is not leader. -/
structure RaftNode (Id Addr Cmd : Type)
    extends RaftState Id Cmd, VolatileState, LeaderState Addr where
  nodeId : Id
  peers : List Addr
  state : NodeState := .follower
  currentLeader : Option Id := none
  votesReceived : Finset Id := ∅
  pendingCommits : Dict Nat Nat := ∅
  heartbeatTask : Option Nat := none
  calls : List (ProposeCall Id Cmd) := []
  tasks : List (Task Addr) := []
  fresh : Nat := 0

structure VoteRequest (Id : Type) where
  term : Nat
  candidateId : Id
  lastLogIndex : Int
  lastLogTerm : Nat
deriving DecidableEq

structure VoteResponse (Id : Type) where
  term : Nat
  voteGranted : Bool
  voterId : Id
deriving DecidableEq

structure AppendRequest (Id Cmd : Type) where
  term : Nat
  leaderId : Id
  prevLogIndex : Nat
  prevLogTerm : Nat
  entries : List (LogEntry Id Cmd)
  leaderCommit : Nat
deriving DecidableEq

structure AppendResponse where
  term : Nat
  success : Bool
deriving DecidableEq

namespace RaftNode
variable {Id Addr Cmd : Type} [DecidableEq Id] [DecidableEq Addr]

def quorum (x : RaftNode Id Addr Cmd) : Nat := (x.peers.length + 1) / 2 + 1

/-- `_become_follower`. Cancelling the heartbeat loop also cancels the tasks it gathers. -/
def becomeFollower (x : RaftNode Id Addr Cmd) (term : Nat) : RaftNode Id Addr Cmd :=
  { x with state := .follower, currentTerm := term, votedFor := none, heartbeatTask := none }

/-- `propose` up to its `wait_for`; a node that is not leader rejects the command. -/
def propose (x : RaftNode Id Addr Cmd) (command : Command Id Cmd) (caller : Caller) :
    RaftNode Id Addr Cmd :=
  if x.state ≠ .leader then x
  else
    let entry : LogEntry Id Cmd :=
      { term := x.currentTerm, index := x.log.length + 1, command := command }
    { x with
      log := x.log ++ [entry]
      pendingCommits := x.pendingCommits.set entry.index x.fresh
      calls := x.calls ++ [{ future := x.fresh, entry := entry, caller := caller }]
      tasks := x.tasks ++ [.replicateToAll]
      fresh := x.fresh + 1 }

/-- `_become_leader` up to the suspension of its `no_op` proposal. -/
def becomeLeader (x : RaftNode Id Addr Cmd) : RaftNode Id Addr Cmd :=
  propose
    { x with
      state := .leader
      currentLeader := some x.nodeId
      nextIndex := .ofKeys x.peers (x.log.length + 1)
      matchIndex := .ofKeys x.peers 0 }
    (.noOp x.nodeId) .becomeLeader

/-- The end of `_become_leader`: any old heartbeat loop is cancelled, a new one is created. -/
def startHeartbeat (x : RaftNode Id Addr Cmd) : RaftNode Id Addr Cmd :=
  { x with heartbeatTask := some x.fresh, fresh := x.fresh + 1 }

def voteRequest (x : RaftNode Id Addr Cmd) : VoteRequest Id :=
  { term := x.currentTerm
    candidateId := x.nodeId
    lastLogIndex := (x.log.length : Int) - 1
    lastLogTerm := lastTerm LogEntry.term x.log }

/-- `_start_election`, with the vote requests of the tasks it creates. -/
def startElection (x : RaftNode Id Addr Cmd) :
    RaftNode Id Addr Cmd × List (Addr × VoteRequest Id) :=
  let x : RaftNode Id Addr Cmd :=
    { x with
      currentTerm := x.currentTerm + 1
      state := .candidate
      votedFor := some x.nodeId
      votesReceived := {x.nodeId}
      currentLeader := none }
  if x.peers = [] then (becomeLeader x, [])
  else (x, x.peers.map fun peer => (peer, x.voteRequest))

def logOk (x : RaftNode Id Addr Cmd) (req : VoteRequest Id) : Prop :=
  req.lastLogTerm > lastTerm LogEntry.term x.log ∨
    req.lastLogTerm = lastTerm LogEntry.term x.log ∧
      req.lastLogIndex ≥ (x.log.length : Int) - 1

instance (x : RaftNode Id Addr Cmd) (req : VoteRequest Id) : Decidable (x.logOk req) :=
  inferInstanceAs (Decidable (_ ∨ _))

def handleVoteRequest (x : RaftNode Id Addr Cmd) (req : VoteRequest Id) :
    RaftNode Id Addr Cmd × VoteResponse Id :=
  let x := if req.term > x.currentTerm then becomeFollower x req.term else x
  if req.term ≥ x.currentTerm ∧
      (x.votedFor = none ∨ x.votedFor = some req.candidateId) ∧ x.logOk req then
    ({ x with votedFor := some req.candidateId }, ⟨x.currentTerm, true, x.nodeId⟩)
  else (x, ⟨x.currentTerm, false, x.nodeId⟩)

def handleVoteResponse (x : RaftNode Id Addr Cmd) (resp : VoteResponse Id) :
    RaftNode Id Addr Cmd :=
  if x.state ≠ .candidate then x
  else if resp.term > x.currentTerm then becomeFollower x resp.term
  else if resp.voteGranted ∧ resp.term = x.currentTerm then
    let x := { x with votesReceived := insert resp.voterId x.votesReceived }
    if x.votesReceived.card ≥ x.quorum then becomeLeader x else x
  else x

/-- `_replicate_to_all`: one task for every peer. -/
def replicateToAll (x : RaftNode Id Addr Cmd) (origin : Origin) : List (Task Addr) :=
  x.peers.map (.replicateToPeer origin)

def nextIndexOf (x : RaftNode Id Addr Cmd) (peer : Addr) : Nat := (x.nextIndex.get? peer).getD 1

def matchIndexOf (x : RaftNode Id Addr Cmd) (peer : Addr) : Nat := (x.matchIndex.get? peer).getD 0

/-- The payload `_replicate_to_peer` builds from the state in which it runs. -/
def appendRequest (x : RaftNode Id Addr Cmd) (peer : Addr) : AppendRequest Id Cmd :=
  let prevLogIndex := x.nextIndexOf peer - 1
  { term := x.currentTerm
    leaderId := x.nodeId
    prevLogIndex := prevLogIndex
    prevLogTerm :=
      if 0 < prevLogIndex ∧ prevLogIndex ≤ x.log.length then
        (x.log[prevLogIndex - 1]?.map LogEntry.term).getD 0
      else 0
    entries := x.log.drop prevLogIndex
    leaderCommit := x.commitIndex }

/-- 1 for the leader itself and 1 for each peer whose `match_index` reaches `idx`. -/
def replicas (x : RaftNode Id Addr Cmd) (idx : Nat) : Nat :=
  1 + x.peers.countP fun p => x.matchIndexOf p ≥ idx

/-- The loop of `_advance_commit_index`, from `idx` down to `commit_index + 1`. -/
def commitScan (x : RaftNode Id Addr Cmd) : Nat → Option Nat
  | 0 => none
  | idx + 1 =>
    if idx + 1 ≤ x.commitIndex then none
    else if x.log[idx]?.map LogEntry.term ≠ some x.currentTerm then commitScan x idx
    else if x.replicas (idx + 1) ≥ x.quorum then some (idx + 1)
    else commitScan x idx

/-- Pop and resolve every pending future up to `idx`. -/
def resolvePending (x : RaftNode Id Addr Cmd) (idx : Nat) : RaftNode Id Addr Cmd :=
  let popped := (x.pendingCommits.filterKeys (· ≤ idx)).entries.map Prod.snd
  { x with
    pendingCommits := x.pendingCommits.filterKeys fun i => !decide (i ≤ idx)
    calls := x.calls.map fun c => if c.future ∈ popped then { c with resolved := true } else c }

def advanceCommitIndex (x : RaftNode Id Addr Cmd) : RaftNode Id Addr Cmd :=
  match x.commitScan x.log.length with
  | some idx => resolvePending { x with commitIndex := idx } idx
  | none => x

def handleAppendEntriesResponse (x : RaftNode Id Addr Cmd) (peer : Addr)
    (resp : AppendResponse) (entriesSent prevNextIdx : Nat) : RaftNode Id Addr Cmd :=
  if resp.term > x.currentTerm then becomeFollower x resp.term
  else if x.state ≠ .leader then x
  else if resp.success then
    let newMatch := prevNextIdx - 1 + entriesSent
    advanceCommitIndex
      { x with
        matchIndex := x.matchIndex.set peer (max (x.matchIndexOf peer) newMatch)
        nextIndex := x.nextIndex.set peer (newMatch + 1) }
  else { x with nextIndex := x.nextIndex.set peer (max 1 (x.nextIndexOf peer - 1)) }

def handleAppendEntries (x : RaftNode Id Addr Cmd) (req : AppendRequest Id Cmd) :
    RaftNode Id Addr Cmd × AppendResponse :=
  if req.term < x.currentTerm then (x, ⟨x.currentTerm, false⟩)
  else
    let x := { becomeFollower x req.term with currentLeader := some req.leaderId }
    if 0 < req.prevLogIndex ∧ x.log.length < req.prevLogIndex then (x, ⟨x.currentTerm, false⟩)
    else if 0 < req.prevLogIndex ∧
        x.log[req.prevLogIndex - 1]?.map LogEntry.term ≠ some req.prevLogTerm then
      ({ x with log := x.log.take (req.prevLogIndex - 1) }, ⟨x.currentTerm, false⟩)
    else
      let log := splice LogEntry.term x.log req.prevLogIndex req.entries
      ({ x with
          log := log
          commitIndex :=
            if req.leaderCommit > x.commitIndex then min req.leaderCommit log.length
            else x.commitIndex },
        ⟨x.currentTerm, true⟩)

/-- The `k`-th suspended `propose` returns: `True` if its future is resolved, else
`False` after the timeout, which pops whatever future is pending at its index. -/
def finishPropose (x : RaftNode Id Addr Cmd) (c : ProposeCall Id Cmd) (k : Nat) :
    RaftNode Id Addr Cmd :=
  let x := { x with calls := x.calls.eraseIdx k }
  let x := if c.resolved then x
    else { x with pendingCommits := x.pendingCommits.erase c.entry.index }
  match c.caller with
  | .becomeLeader => startHeartbeat x
  | .client => x

/-- One turn of the inner loop of `_apply_loop`; the entry, if any, is handed to the callback. -/
def applyNext (x : RaftNode Id Addr Cmd) : RaftNode Id Addr Cmd × Option (LogEntry Id Cmd) :=
  ({ x with lastApplied := x.lastApplied + 1 }, x.log[x.lastApplied]?)

end RaftNode
end DistSync.Raft
