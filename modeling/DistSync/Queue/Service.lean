import Mathlib.Logic.Function.Basic
import DistSync.Queue.Node
import DistSync.Run

/-! The queue nodes on one Redis. One action is what a coroutine does from one `await` to the
next; the Redis command that it awaited takes effect as it resumes. `history` records, newest
first, what the steps did; no code reads it. -/
namespace DistSync.Queue

/-- The keys `queue:…`, `dlq:…`, `offset:…` and `committed:…` of each topic and partition, and
the keys `inflight:…`. -/
structure Redis (Node Payload : Type) where
  queue : TopicPartition → List (Message Node Payload) := fun _ => []
  dlq : TopicPartition → List (Message Node Payload) := fun _ => []
  offset : TopicPartition → Nat := fun _ => 0
  committed : TopicPartition → Option Nat := fun _ => none
  inflight : Dict String (Message Node Payload) := ∅

namespace Redis
variable {Node Payload : Type} (r : Redis Node Payload)

def rpush (m : Message Node Payload) : Redis Node Payload :=
  { r with queue := Function.update r.queue m.home (r.queue m.home ++ [m]) }

def lpush (m : Message Node Payload) : Redis Node Payload :=
  { r with queue := Function.update r.queue m.home (m :: r.queue m.home) }

/-- `rpush` to the dead-letter list. -/
def bury (m : Message Node Payload) : Redis Node Payload :=
  { r with dlq := Function.update r.dlq m.home (r.dlq m.home ++ [m]) }

def incr (tp : TopicPartition) : Redis Node Payload :=
  { r with offset := Function.update r.offset tp (r.offset tp + 1) }

def commit (m : Message Node Payload) : Redis Node Payload :=
  { r with committed := Function.update r.committed m.home (some m.offset) }

/-- What `lpop` leaves behind. -/
def pop (tp : TopicPartition) : Redis Node Payload :=
  { r with queue := Function.update r.queue tp (r.queue tp).tail }

end Redis

inductive Event (Node Payload : Type) where
  | created (messageId : String)
  | produced (msg : Message Node Payload)
  | batched (msg : Message Node Payload)
  | counted (messageId : String) (offset : Nat)
  | taken (node : Node) (msg : Message Node Payload)
  | returned (node : Node) (messages : List (Message Node Payload))
  | acknowledging (node : Node) (msg : Message Node Payload)
  | acknowledged (node : Node) (msg : Message Node Payload)

structure Service (Node Payload : Type) where
  redis : Redis Node Payload := {}
  nodes : Node → QueueNode Node Payload := fun _ => {}
  history : List (Event Node Payload) := []

inductive Action (Node Payload : Type) where
  | produce (n : Node) (topic : String) (payload : Payload) (key : Option String)
      (headers : List (String × String)) (messageId : String) (timestamp : Rat)
  | produceBatch (n : Node) (topic : String) (items : List (BatchItem Payload))
  | consume (n : Node) (topic groupId consumerId : String) (partitions : Option (List Int))
      (batchSize : Nat)
  | acknowledge (n : Node) (messageId : String)
  | negativeAcknowledge (n : Node) (messageId : String)
  | checkTimeouts (n : Node) (now : Rat)
  | resume (n : Node) (k : Nat)

def createdIds {Node Payload : Type} (h : List (Event Node Payload)) : List String :=
  h.filterMap fun
    | .created messageId => some messageId
    | _ => none

def returns {Node Payload : Type} (n : Node) :
    Option (List (Message Node Payload)) → List (Event Node Payload)
  | some messages => [.returned n messages]
  | none => []

namespace Service
variable {Node Payload : Type} [DecidableEq Node] (cfg : Config Node Payload)
  (s : Service Node Payload)

def move (n : Node) (y : QueueNode Node Payload) (r : Redis Node Payload)
    (evs : List (Event Node Payload)) : Service Node Payload where
  redis := r
  nodes := Function.update s.nodes n y
  history := evs ++ s.history

/-- `uuid4` gives a message an identity that no other has. -/
def produce (n : Node) (msg : Message Node Payload) : Option (Service Node Payload) :=
  if msg.messageId ∈ createdIds s.history then none
  else some (s.move n ((s.nodes n).produce cfg msg) s.redis [.created msg.messageId])

def produceBatch (n : Node) (msgs : List (Message Node Payload)) :
    Option (Service Node Payload) :=
  if (msgs.map Message.messageId).Nodup ∧ ∀ m ∈ msgs, m.messageId ∉ createdIds s.history then
    some (s.move n ((s.nodes n).produceBatch msgs) s.redis
      (msgs.map fun m => .created m.messageId))
  else none

def consume (n : Node) (topic groupId consumerId : String) (partitions : Option (List Int))
    (batchSize : Nat) : Service Node Payload :=
  let r := (s.nodes n).consume cfg topic groupId consumerId partitions batchSize
  s.move n r.1 s.redis (returns n r.2)

def acknowledge (n : Node) (messageId : String) : Service Node Payload :=
  match (s.nodes n).acknowledge messageId with
  | some r => s.move n r.2 s.redis [.acknowledging n r.1]
  | none => s

def negativeAcknowledge (n : Node) (messageId : String) : Service Node Payload :=
  match (s.nodes n).negativeAcknowledge messageId none with
  | some y => s.move n y s.redis []
  | none => s

/-- The timeout checker wakes up, unless it is still at work. -/
def checkTimeouts (n : Node) (now : Rat) : Option (Service Node Payload) :=
  let x := s.nodes n
  if x.calls.any Call.checking then none
  else some (s.move n (x.checkTimedOut (x.timedOut now)) s.redis [])

/-- The `k`-th coroutine of `n` gets the reply to its command and runs to its next `await`. -/
def resume (n : Node) (k : Nat) : Option (Service Node Payload) :=
  (s.nodes n).calls[k]?.map fun call =>
    let x := (s.nodes n).wake k
    match call with
    | .rpush msg => s.move n (x.suspend (.incr msg)) (s.redis.rpush msg) [.produced msg]
    | .incr msg =>
      s.move n x (s.redis.incr msg.home) [.counted msg.messageId (s.redis.offset msg.home + 1)]
    | .execute pipe => s.move n x (pipe.foldl Redis.rpush s.redis) (pipe.reverse.map .batched)
    | .lpop topic p rest batchSize messages =>
      match s.redis.queue (topic, p) with
      | [] =>
        let r := x.poll topic batchSize messages rest
        s.move n r.1 s.redis (returns n r.2)
      | raw :: _ =>
        let msg := { raw with partition := p }
        let r := (x.track msg).poll topic batchSize (messages ++ [msg]) rest
        s.move n r.1 (s.redis.pop (topic, p)) (returns n r.2 ++ [.taken n msg])
    | .set msg => s.move n x (s.redis.commit msg) [.acknowledged n msg]
    | .requeue msg timedOut =>
      s.move n (x.checkTimedOut (timedOut.getD []))
        (if msg.retryCount ≥ cfg.maxRetries then s.redis.bury msg else s.redis.lpush msg) []

def step : Action Node Payload → Option (Service Node Payload)
  | .produce n topic payload key headers messageId timestamp =>
    s.produce cfg n (cfg.message n topic payload key headers messageId timestamp)
  | .produceBatch n topic items => s.produceBatch n (cfg.batch n topic items)
  | .consume n topic groupId consumerId partitions batchSize =>
    some (s.consume cfg n topic groupId consumerId partitions batchSize)
  | .acknowledge n messageId => some (s.acknowledge n messageId)
  | .negativeAcknowledge n messageId => some (s.negativeAcknowledge n messageId)
  | .checkTimeouts n now => s.checkTimeouts n now
  | .resume n k => s.resume cfg n k

end Service

/-- The nodes, started, on an empty Redis. -/
def queue {Node Payload : Type} [DecidableEq Node] (cfg : Config Node Payload) :
    System (Service Node Payload) (Action Node Payload) where
  init := {}
  step := fun s a => s.step cfg a

/-- A configuration for examples: sixteen partitions, all messages in partition 0. -/
def plain {Node : Type} : Config Node Nat := { hash := fun _ => 0, size := fun _ => 0 }

end DistSync.Queue
