import Mathlib.Logic.Function.Basic
import DistSync.Run
import DistSync.Raft.Node
import DistSync.Raft.Wiring

/-! A cluster of `RaftNode`s joined by request/response exchanges. One action is
one stretch of handler code between two suspension points of some node; messages
are delayed and lost by not delivering them. `history` records, newest first,
what the steps did; no handler reads it. -/
namespace DistSync.Raft
open TermLog

/-- A `_request_vote` or `_replicate_to_peer` suspended in `_send_message`, with its
payload and, once the handler at the other end ran, the response on its way back. -/
inductive Rpc (Id Addr Cmd : Type) where
  | vote (src : Id) (peer : Addr) (req : VoteRequest Id) (reply : Option (VoteResponse Id))
  | append (src : Id) (origin : Origin) (peer : Addr) (req : AppendRequest Id Cmd) (nextIdx : Nat)
      (reply : Option AppendResponse)

inductive Event (Id Cmd : Type) where
  | becameLeader (node : Id) (term : Nat) (log : List (LogEntry Id Cmd))
  | appended (node : Id) (term : Nat) (log : List (LogEntry Id Cmd))
  | committed (node : Id) (term : Nat) (idx : Nat) (log : List (LogEntry Id Cmd))
  | voted (voter : Id) (term : Nat) (candidate : Id) (log : List (LogEntry Id Cmd))
  | sentAppend (node : Id) (state : NodeState) (currentTerm : Nat) (req : AppendRequest Id Cmd)
  | accepted (node : Id) (term : Nat) (upTo : Nat)
  | gotResponse (node : Id) (state : NodeState) (currentTerm : Nat) (req : AppendRequest Id Cmd)
      (resp : AppendResponse)
  | applied (node : Id) (position : Nat) (entry : LogEntry Id Cmd)
  | returned (node : Id) (entry : LogEntry Id Cmd) (result : Bool)
      (log : List (LogEntry Id Cmd)) (commitIndex : Nat)
deriving DecidableEq

structure Cluster (Id Addr Cmd : Type) where
  nodes : Id → RaftNode Id Addr Cmd
  net : List (Rpc Id Addr Cmd) := []
  history : List (Event Id Cmd) := []

inductive Action (Id Cmd : Type) where
  | electionTimeout (n : Id)
  | heartbeat (n : Id)
  | runTask (n : Id) (k : Nat)
  | deliver (k : Nat)
  | propose (n : Id) (command : Cmd)
  | finishPropose (n : Id) (k : Nat)
  | applyNext (n : Id)

section Step
variable {Id Addr Cmd : Type} [DecidableEq Id] [DecidableEq Addr]

/-- What a step of `n` from `x` to `y` shows of leadership, newest first. -/
def observe (n : Id) (x y : RaftNode Id Addr Cmd) : List (Event Id Cmd) :=
  (if x.state = .leader ∧ y.state = .leader ∧ x.commitIndex < y.commitIndex then
    [.committed n y.currentTerm y.commitIndex y.log] else []) ++
  (if y.state = .leader ∧ x.log.length < y.log.length then
    [.appended n y.currentTerm y.log] else []) ++
  (if x.state ≠ .leader ∧ y.state = .leader then [.becameLeader n y.currentTerm x.log] else [])

/-- The heartbeat loop behind a task is neither finished nor cancelled. -/
def Origin.alive (x : RaftNode Id Addr Cmd) : Origin → Bool
  | .propose => true
  | .heartbeat loop => x.heartbeatTask = some loop

namespace Cluster

/-- Node `n` moves to `y` with events `evs`, and the network becomes `net`. -/
def move (s : Cluster Id Addr Cmd) (n : Id) (y : RaftNode Id Addr Cmd)
    (net : List (Rpc Id Addr Cmd)) (evs : List (Event Id Cmd)) : Cluster Id Addr Cmd where
  nodes := Function.update s.nodes n y
  net := net
  history := observe n (s.nodes n) y ++ evs ++ s.history

def electionTimeout (s : Cluster Id Addr Cmd) (n : Id) : Option (Cluster Id Addr Cmd) :=
  let x := s.nodes n
  if x.state = .leader then none
  else
    let y := x.startElection
    some (s.move n y.1 (s.net ++ y.2.map fun r => .vote n r.1 r.2 none)
      [.voted n (x.currentTerm + 1) n x.log])

/-- The `while` test of `_heartbeat_loop`: replicate to all, or end the loop. A new
round may start before all responses of the last one are in. -/
def heartbeat (s : Cluster Id Addr Cmd) (n : Id) : Option (Cluster Id Addr Cmd) :=
  let x := s.nodes n
  x.heartbeatTask.map fun loop =>
    if x.state = .leader then
      s.move n { x with tasks := x.tasks ++ x.replicateToAll (.heartbeat loop) } s.net []
    else s.move n { x with heartbeatTask := none } s.net []

/-- A scheduled coroutine starts; one that was cancelled before does nothing. -/
def runTask (s : Cluster Id Addr Cmd) (n : Id) (k : Nat) : Option (Cluster Id Addr Cmd) :=
  let x := s.nodes n
  x.tasks[k]?.map fun task =>
    let y := { x with tasks := x.tasks.eraseIdx k }
    match task with
    | .replicateToAll =>
      s.move n { y with tasks := y.tasks ++ x.replicateToAll .propose } s.net []
    | .replicateToPeer origin peer =>
      if origin.alive x then
        let req := x.appendRequest peer
        s.move n y (s.net ++ [.append n origin peer req (x.nextIndexOf peer) none])
          [.sentAppend n x.state x.currentTerm req]
      else s.move n y s.net []

/-- The `k`-th exchange moves on: its request reaches the node listening at the
peer's address, or its response reaches the coroutine that waits for it. -/
def deliver (W : Wiring Id Addr) (s : Cluster Id Addr Cmd) (k : Nat) :
    Option (Cluster Id Addr Cmd) :=
  s.net[k]?.bind fun rpc =>
    match rpc with
    | .vote src peer req none =>
      (W.route peer).map fun dst =>
        let r := (s.nodes dst).handleVoteRequest req
        s.move dst r.1 (s.net.set k (.vote src peer req (some r.2)))
          (if r.2.voteGranted then [.voted dst req.term req.candidateId (s.nodes dst).log] else [])
    | .vote src _ _ (some resp) =>
      some (s.move src ((s.nodes src).handleVoteResponse resp) (s.net.eraseIdx k) [])
    | .append src origin peer req nextIdx none =>
      (W.route peer).map fun dst =>
        let r := (s.nodes dst).handleAppendEntries req
        s.move dst r.1 (s.net.set k (.append src origin peer req nextIdx (some r.2)))
          (if r.2.success then [.accepted dst req.term (req.prevLogIndex + req.entries.length)]
            else [])
    | .append src origin peer req nextIdx (some resp) =>
      let x := s.nodes src
      if origin.alive x then
        some (s.move src (x.handleAppendEntriesResponse peer resp req.entries.length nextIdx)
          (s.net.eraseIdx k) [.gotResponse src x.state x.currentTerm req resp])
      else some (s.move src x (s.net.eraseIdx k) [])

def propose (s : Cluster Id Addr Cmd) (n : Id) (command : Cmd) : Cluster Id Addr Cmd :=
  s.move n ((s.nodes n).propose (.client command) .client) s.net []

def finishPropose (s : Cluster Id Addr Cmd) (n : Id) (k : Nat) : Option (Cluster Id Addr Cmd) :=
  let x := s.nodes n
  x.calls[k]?.map fun c =>
    s.move n (x.finishPropose c k) s.net
      [.returned n c.entry c.resolved x.log x.commitIndex]

def applyNext (s : Cluster Id Addr Cmd) (n : Id) : Option (Cluster Id Addr Cmd) :=
  let x := s.nodes n
  if x.lastApplied < x.commitIndex then
    let y := x.applyNext
    some (s.move n y.1 s.net
      (match y.2 with
        | some e => [.applied n y.1.lastApplied e]
        | none => []))
  else none

def step (W : Wiring Id Addr) (s : Cluster Id Addr Cmd) :
    Action Id Cmd → Option (Cluster Id Addr Cmd)
  | .electionTimeout n => s.electionTimeout n
  | .heartbeat n => s.heartbeat n
  | .runTask n k => s.runTask n k
  | .deliver k => s.deliver W k
  | .propose n command => some (s.propose n command)
  | .finishPropose n k => s.finishPropose n k
  | .applyNext n => s.applyNext n

end Cluster

/-- The cluster wired as `W`, started with every node a follower in term 0. -/
def raft (W : Wiring Id Addr) (Cmd : Type) : System (Cluster Id Addr Cmd) (Action Id Cmd) where
  init := { nodes := fun n => { nodeId := n, peers := W.peers n } }
  step := Cluster.step W

end Step
end DistSync.Raft
