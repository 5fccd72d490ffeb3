import Mathlib.Data.Multiset.AddSub
import Mathlib.Data.Finset.Dedup
import Mathlib.Logic.Function.Basic
import DistSync.Cache.Node
import DistSync.Raft.Wiring
import DistSync.Run

/-! Cache nodes that send each other coherence messages. A coroutine that awaits answers is a
`Call`. A sender may stop waiting, when it cancels a fetch or after two seconds; its request
may still arrive, but nobody gets the answer. -/
namespace DistSync.Cache

/-- `route` tells which node a message to a name reaches. -/
structure Deployment (Node Name : Type) where
  nodeId : Node → Name
  peers : Node → List Name
  route : Name → Option Node
  policy : Node → Policy
  capacity : Node → Int

/-- The full mesh on `N` nodes, whose names are their numbers. -/
def Deployment.mesh (N : Nat) (policy : Policy) (capacity : Int) :
    Deployment (Fin N) (Fin N) where
  nodeId := id
  peers := (Raft.mesh N).peers
  route := (Raft.mesh N).route
  policy _ := policy
  capacity _ := capacity

inductive Goal (Val : Type) where
  | read
  | write (value : Option Val)
  | delete
deriving DecidableEq

def Goal.isWrite {Val : Type} : Goal Val → Bool
  | .write _ => true
  | _ => false

/-- A coroutine of `node` in `_fetch_from_peers` or `_invalidate_others`: to whom its requests
are under way, and the answers under way to it. -/
structure Call (Node Name Key Val : Type) where
  node : Node
  key : Key
  goal : Goal Val
  sent : Multiset Name
  answers : Multiset (Answer Name Val)

inductive Reply (Node Key Val : Type) where
  | value (n : Node) (key : Key) (value : Option Val)
  | written (n : Node) (key : Key) (value : Option Val)
  | deleted (n : Node) (key : Key)

/-- `stray` are the requests under way whose sender waits no more. `history` records the
replies, newest first. -/
structure Cluster (Node Name Task Key Val : Type) where
  nodes : Node → CacheNode Name Key Val
  calls : Dict Task (Call Node Name Key Val) := ∅
  stray : Multiset (Name × Request Name Key) := 0
  history : List (Reply Node Key Val) := []

inductive Action (Node Name Task Key Val : Type) where
  | read (n : Node) (task : Task) (key : Key)
  | write (n : Node) (task : Task) (key : Key) (value : Option Val)
  | delete (n : Node) (task : Task) (key : Key)
  | handle (task : Task) (name : Name)
  | handleStray (name : Name) (r : Request Name Key)
  | drop (name : Name) (r : Request Name Key)
  | receive (task : Task) (a : Answer Name Val)
  | timeOut (task : Task) (name : Name)
  | timeOutAnswer (task : Task) (a : Answer Name Val)
  | resume (task : Task)
  | update (n : Node) (key : Key) (value : Option Val) (version : Int)

variable {Node Name Task Key Val : Type} [DecidableEq Node] [DecidableEq Name]
  [DecidableEq Task] [DecidableEq Key] [DecidableEq Val]

def Call.request (d : Deployment Node Name) (c : Call Node Name Key Val) : Request Name Key :=
  match c.goal with
  | .read => .fetch c.key (d.nodeId c.node)
  | _ => .invalidate c.key (d.nodeId c.node)

def Call.Done (c : Call Node Name Key Val) : Prop := c.sent = 0 ∧ c.answers = 0

instance (c : Call Node Name Key Val) : Decidable c.Done := inferInstanceAs (Decidable (_ ∧ _))

namespace Cluster
variable (d : Deployment Node Name) (s : Cluster Node Name Task Key Val)

def setNode (n : Node) (x : CacheNode Name Key Val) : Cluster Node Name Task Key Val :=
  { s with nodes := Function.update s.nodes n x }

def setCall (task : Task) (c : Call Node Name Key Val) : Cluster Node Name Task Key Val :=
  { s with calls := s.calls.set task c }

def endCall (task : Task) : Cluster Node Name Task Key Val :=
  { s with calls := s.calls.erase task }

def addStray (names : Multiset Name) (r : Request Name Key) : Cluster Node Name Task Key Val :=
  { s with stray := s.stray + names.map fun name => (name, r) }

def reply (r : Reply Node Key Val) : Cluster Node Name Task Key Val :=
  { s with history := r :: s.history }

def read (n : Node) (task : Task) (key : Key) : Cluster Node Name Task Key Val :=
  let r := (s.nodes n).read key
  let s := s.setNode n r.2
  match r.1 with
  | some value => s.reply (.value n key value)
  | none =>
    if d.peers n = [] then s.reply (.value n key none)
    else s.setCall task ⟨n, key, .read, d.peers n, 0⟩

/-- The coroutine goes on after `_invalidate_others`. -/
def invalidated (n : Node) (key : Key) : Goal Val → Cluster Node Name Task Key Val
  | .read => s
  | .write value =>
    let r := (s.nodes n).writeInvalidated (d.nodeId n) key value
    let s := s.setNode n r.2
    match r.1 with
    | .ok _ => s.reply (.written n key value)
    | .error _ => s
  | .delete => (s.setNode n ((s.nodes n).deleteInvalidated key)).reply (.deleted n key)

def invalidateOthers (n : Node) (task : Task) (key : Key) (goal : Goal Val) :
    Cluster Node Name Task Key Val :=
  let targets := (s.nodes n).targets (d.nodeId n) key (d.peers n)
  if targets = ∅ then s.invalidated d n key goal
  else s.setCall task ⟨n, key, goal, targets.val, 0⟩

def write (n : Node) (task : Task) (key : Key) (value : Option Val) :
    Cluster Node Name Task Key Val :=
  let r := (s.nodes n).write key value
  let s := s.setNode n r.2
  if r.1 then s.reply (.written n key value) else s.invalidateOthers d n task key (.write value)

def handle (task : Task) (name : Name) : Option (Cluster Node Name Task Key Val) :=
  (s.calls.get? task).bind fun c =>
    if name ∈ c.sent then
      (d.route name).map fun q =>
        let r := (s.nodes q).handleCoherenceMessage (d.nodeId q) (c.request d)
        (s.setNode q r.2).setCall task
          { c with sent := c.sent.erase name, answers := r.1 ::ₘ c.answers }
    else none

def handleStray (name : Name) (r : Request Name Key) : Option (Cluster Node Name Task Key Val) :=
  if (name, r) ∈ s.stray then
    (d.route name).map fun q =>
      { s.setNode q ((s.nodes q).handleCoherenceMessage (d.nodeId q) r).2 with
        stray := s.stray.erase (name, r) }
  else none

/-- The loop of `_fetch_from_peers` and the `gather` of `_invalidate_others` with one task
less: the loop ends when no task is left. -/
def settle (task : Task) (c : Call Node Name Key Val) : Cluster Node Name Task Key Val :=
  if c.goal = .read ∧ c.Done then (s.endCall task).reply (.value c.node c.key none)
  else s.setCall task c

def found (n : Node) (key : Key) (value : Option Val) (sourceNode : Name) :
    Cluster Node Name Task Key Val :=
  match value with
  | none => s.reply (.value n key none)
  | some v =>
    let r := (s.nodes n).readFetched (d.nodeId n) key v (some sourceNode)
    let s := s.setNode n r.2
    match r.1 with
    | .ok value => s.reply (.value n key value)
    | .error _ => s

/-- An answer reaches the caller. The first value found cancels the other fetches. -/
def receive (task : Task) (a : Answer Name Val) : Option (Cluster Node Name Task Key Val) :=
  (s.calls.get? task).bind fun c =>
    if a ∈ c.answers then
      match c.goal, a with
      | .read, .found value _ nodeId =>
        some (((s.endCall task).addStray c.sent (c.request d)).found d c.node c.key value nodeId)
      | _, _ => some (s.settle task { c with answers := c.answers.erase a })
    else none

def timeOut (task : Task) (name : Name) : Option (Cluster Node Name Task Key Val) :=
  (s.calls.get? task).bind fun c =>
    if name ∈ c.sent then
      some ((s.addStray {name} (c.request d)).settle task { c with sent := c.sent.erase name })
    else none

def timeOutAnswer (task : Task) (a : Answer Name Val) : Option (Cluster Node Name Task Key Val) :=
  (s.calls.get? task).bind fun c =>
    if a ∈ c.answers then some (s.settle task { c with answers := c.answers.erase a }) else none

def resume (task : Task) : Option (Cluster Node Name Task Key Val) :=
  (s.calls.get? task).bind fun c =>
    if c.goal ≠ .read ∧ c.Done then some ((s.endCall task).invalidated d c.node c.key c.goal)
    else none

def step : Action Node Name Task Key Val → Option (Cluster Node Name Task Key Val)
  | .read n task key => if task ∈ s.calls.keys then none else some (s.read d n task key)
  | .write n task key value =>
    if task ∈ s.calls.keys then none else some (s.write d n task key value)
  | .delete n task key =>
    if task ∈ s.calls.keys then none else some (s.invalidateOthers d n task key .delete)
  | .handle task name => s.handle d task name
  | .handleStray name r => s.handleStray d name r
  | .drop name r =>
    if (name, r) ∈ s.stray then some { s with stray := s.stray.erase (name, r) } else none
  | .receive task a => s.receive d task a
  | .timeOut task name => s.timeOut d task name
  | .timeOutAnswer task a => s.timeOutAnswer task a
  | .resume task => s.resume d task
  | .update n key value version =>
    some (s.setNode n ((s.nodes n).handleUpdate key value version))

end Cluster

def cluster (d : Deployment Node Name) :
    System (Cluster Node Name Task Key Val) (Action Node Name Task Key Val) where
  init := { nodes := fun n => { store := .new (d.policy n) (d.capacity n) } }
  step := fun s a => s.step d a

end DistSync.Cache
