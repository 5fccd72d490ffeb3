import Mathlib.Data.Finset.Sort
import Mathlib.Data.String.Basic
import DistSync.Dict

/-! One `DistributedQueue`: what it keeps in memory, and what its coroutines do between two
`await`s. A suspended coroutine is a `Call`, named after the Redis command that it awaits. -/
namespace DistSync.Queue

/-- A message, which is what its JSON text gives back. Times are in seconds. -/
structure Message (Node Payload : Type) where
  messageId : String
  topic : String
  payload : Payload
  producerId : Node
  timestamp : Rat
  partition : Int
  offset : Nat := 0
  headers : List (String × String) := []
  retryCount : Nat := 0
deriving DecidableEq

abbrev TopicPartition := String × Int

def Message.home {Node Payload : Type} (m : Message Node Payload) : TopicPartition :=
  (m.topic, m.partition)

structure ConsumerGroup where
  groupId : String
  topic : String
  members : Finset String := ∅

/-- `hash` is MD5 and `size` the number of bytes of a message's JSON text. -/
structure Config (Node Payload : Type) where
  numPartitions : Nat := 16
  numPartitions_pos : 0 < numPartitions := by decide
  maxMessageSize : Nat := 1048576
  maxRetries : Nat := 3
  hash : String → Nat
  size : Message Node Payload → Nat

/-- `produce` awaits `rpush` and then `incr`, `produce_batch` `execute`, `consume` one `lpop`
for each partition, `acknowledge` `set`. `negative_acknowledge` awaits the push of `msg`; if
the timeout checker runs it, `timedOut` are the messages this still has to see to. -/
inductive Call (Node Payload : Type) where
  | rpush (msg : Message Node Payload)
  | incr (msg : Message Node Payload)
  | execute (pipe : List (Message Node Payload))
  | lpop (topic : String) (partition : Int) (rest : List Int) (batchSize : Nat)
      (messages : List (Message Node Payload))
  | set (msg : Message Node Payload)
  | requeue (msg : Message Node Payload) (timedOut : Option (List String))

structure QueueNode (Node Payload : Type) where
  inFlight : Dict String (Message Node Payload) := ∅
  consumerGroups : Dict String ConsumerGroup := ∅
  calls : List (Call Node Payload) := []

/-- What `produce_batch` is given for one payload: with it the key that `key_fn` yields, and
the identity and the time that its message gets. -/
structure BatchItem (Payload : Type) where
  payload : Payload
  key : Option String
  messageId : String
  timestamp : Rat

/-- `key or default`. -/
def keyOr (key : Option String) (default : String) : String :=
  match key with
  | some k => if k = "" then default else k
  | none => default

section Config
variable {Node Payload : Type} (cfg : Config Node Payload)

def Config.getPartition (topic key : String) : Int :=
  (cfg.hash (topic ++ ":" ++ key) % cfg.numPartitions : Nat)

/-- The message that `produce` makes. -/
def Config.message (n : Node) (topic : String) (payload : Payload) (key : Option String)
    (headers : List (String × String)) (messageId : String) (timestamp : Rat) :
    Message Node Payload :=
  { messageId := messageId
    topic := topic
    payload := payload
    producerId := n
    timestamp := timestamp
    partition := cfg.getPartition topic (keyOr key messageId)
    headers := headers }

/-- The messages that `produce_batch` makes, in the order of the payloads. -/
def Config.batch (n : Node) (topic : String) (items : List (BatchItem Payload)) :
    List (Message Node Payload) :=
  items.mapIdx fun i item =>
    { messageId := item.messageId
      topic := topic
      payload := item.payload
      producerId := n
      timestamp := item.timestamp
      partition := cfg.getPartition topic (keyOr item.key (toString i)) }

end Config

/-- `msgs_by_partition`. -/
def byPartition {Node Payload : Type} (msgs : List (Message Node Payload)) :
    Dict Int (List (Message Node Payload)) :=
  msgs.foldl (fun d m => d.set m.partition ((d.get? m.partition).getD [] ++ [m])) ∅

/-- The pipeline of a batch: partition after partition. -/
def pipeline {Node Payload : Type} (msgs : List (Message Node Payload)) :
    List (Message Node Payload) :=
  (byPartition msgs).entries.flatMap Prod.snd

namespace QueueNode
variable {Node Payload : Type} (cfg : Config Node Payload) (x : QueueNode Node Payload)

def suspend (call : Call Node Payload) : QueueNode Node Payload :=
  { x with calls := x.calls ++ [call] }

/-- The `k`-th suspended coroutine goes on. -/
def wake (k : Nat) : QueueNode Node Payload := { x with calls := x.calls.eraseIdx k }

/-- `produce` up to its `rpush`; a message that is too large is refused. -/
def produce (msg : Message Node Payload) : QueueNode Node Payload :=
  if cfg.size msg > cfg.maxMessageSize then x else x.suspend (.rpush msg)

def produceBatch (msgs : List (Message Node Payload)) : QueueNode Node Payload :=
  x.suspend (.execute (pipeline msgs))

/-- `_get_or_create_group`. -/
def joinGroup (groupId topic consumerId : String) : QueueNode Node Payload :=
  let group := (x.consumerGroups.get? groupId).getD { groupId := groupId, topic := topic }
  { x with
    consumerGroups :=
      x.consumerGroups.set groupId { group with members := insert consumerId group.members } }

/-- `range(start, stop)`. -/
def range (start stop : Nat) : List Int := (List.range' start (stop - start)).map Int.ofNat

def assignedPartitions (groupId consumerId : String) : List Int :=
  match x.consumerGroups.get? groupId with
  | none => range 0 cfg.numPartitions
  | some group =>
    if group.members = ∅ then range 0 cfg.numPartitions
    else
      let members := group.members.sort (· ≤ ·)
      let myIndex := if consumerId ∈ members then members.idxOf consumerId else 0
      let total := members.length
      let partitionsPerConsumer := cfg.numPartitions / total
      let start := myIndex * partitionsPerConsumer
      let stop := if myIndex = total - 1 then cfg.numPartitions else start + partitionsPerConsumer
      range start stop

/-- The head of the loop of `consume`: it awaits the next partition or returns. -/
def poll (topic : String) (batchSize : Nat) (messages : List (Message Node Payload)) :
    List Int → QueueNode Node Payload × Option (List (Message Node Payload))
  | [] => (x, some messages)
  | p :: rest =>
    if messages.length ≥ batchSize then (x, some messages)
    else (x.suspend (.lpop topic p rest batchSize messages), none)

/-- `consume` up to its first `lpop`. An empty list of partitions counts as none. -/
def consume (topic groupId consumerId : String) (partitions : Option (List Int))
    (batchSize : Nat) : QueueNode Node Payload × Option (List (Message Node Payload)) :=
  let x := x.joinGroup groupId topic consumerId
  let given := partitions.getD []
  x.poll topic batchSize []
    (if given = [] then x.assignedPartitions cfg groupId consumerId else given)

/-- `_in_flight[msg.message_id] = msg`. -/
def track (msg : Message Node Payload) : QueueNode Node Payload :=
  { x with inFlight := x.inFlight.set msg.messageId msg }

/-- `_in_flight.pop(message_id)`. -/
def untrack (messageId : String) : QueueNode Node Payload :=
  { x with inFlight := x.inFlight.erase messageId }

/-- `acknowledge` up to its `set`, with the message it takes out of flight. -/
def acknowledge (messageId : String) :
    Option (Message Node Payload × QueueNode Node Payload) :=
  (x.inFlight.get? messageId).map fun msg => (msg, (x.untrack messageId).suspend (.set msg))

/-- `negative_acknowledge` up to its push, `none` if the message is not in flight. -/
def negativeAcknowledge (messageId : String) (timedOut : Option (List String)) :
    Option (QueueNode Node Payload) :=
  (x.inFlight.get? messageId).map fun msg =>
    (x.untrack messageId).suspend
      (.requeue { msg with retryCount := msg.retryCount + 1 } timedOut)

/-- The loop of `_ack_timeout_checker` over `timed_out`, up to its first push. -/
def checkTimedOut (x : QueueNode Node Payload) : List String → QueueNode Node Payload
  | [] => x
  | messageId :: timedOut =>
    match x.negativeAcknowledge messageId (some timedOut) with
    | some y => y
    | none => checkTimedOut x timedOut

/-- `_ack_timeout` is 30 seconds, from the time the message was produced. -/
def timedOut (now : Rat) : List String :=
  (x.inFlight.entries.filter fun e => now - e.2.timestamp > 30).map fun e => e.2.messageId

end QueueNode

def Call.checking {Node Payload : Type} : Call Node Payload → Bool
  | .requeue _ (some _) => true
  | _ => false

end DistSync.Queue
