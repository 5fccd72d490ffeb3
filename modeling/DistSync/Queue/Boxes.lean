import DistSync.Custody
import DistSync.Queue.Transition

/-! Where messages are: on the shelves of a node, in the lists of a partition, or done with.
One lemma for each operation says which message it moves from where to where. -/
namespace DistSync.Queue
variable {Node Payload : Type}

/-- What a node holds: messages that it has yet to push for the first time, that are in
flight, that a `negative_acknowledge` has yet to push, that an `acknowledge` has yet to commit. -/
inductive Shelf where
  | waiting
  | inFlight
  | carried
  | committing
deriving DecidableEq

inductive Spot (Node : Type) where
  | node (n : Node) (shelf : Shelf)
  | queue (home : TopicPartition)
  | dead (home : TopicPartition)
  | done
deriving DecidableEq

def Call.shelf : Call Node Payload → Shelf → List (Message Node Payload)
  | .rpush msg, .waiting => [msg]
  | .execute pipe, .waiting => pipe
  | .requeue msg _, .carried => [msg]
  | .set msg, .committing => [msg]
  | _, _ => []

def QueueNode.shelf (x : QueueNode Node Payload) (shelf : Shelf) : List (Message Node Payload) :=
  (if shelf = .inFlight then x.inFlight.entries.map Prod.snd else []) ++
    x.calls.flatMap fun c => c.shelf shelf

/-- The messages for which `acknowledge` returned `True`. -/
def acknowledgedMessages (h : List (Event Node Payload)) : List (Message Node Payload) :=
  h.filterMap fun
    | .acknowledged _ msg => some msg
    | _ => none

def Service.box (s : Service Node Payload) : Spot Node → List (Message Node Payload)
  | .node n shelf => (s.nodes n).shelf shelf
  | .queue home => s.redis.queue home
  | .dead home => s.redis.dlq home
  | .done => acknowledgedMessages s.history

section Shelf
variable (x : QueueNode Node Payload)

theorem shelf_suspend (c : Call Node Payload) (sh : Shelf) :
    ((x.suspend c).shelf sh).Perm (c.shelf sh ++ x.shelf sh) := by
  simp only [QueueNode.shelf, QueueNode.suspend, List.flatMap_append, List.flatMap_singleton]
  rw [← List.append_assoc]
  exact List.perm_append_comm

theorem shelf_wake {c : Call Node Payload} {k : Nat} (hk : x.calls[k]? = some c) (sh : Shelf) :
    (x.shelf sh).Perm (c.shelf sh ++ (x.wake k).shelf sh) := by
  obtain ⟨hlt, hc⟩ := List.getElem?_eq_some_iff.mp hk
  have hcalls : x.calls.Perm (c :: x.calls.eraseIdx k) :=
    hc ▸ (List.getElem_cons_eraseIdx_perm hlt).symm
  have hflat := hcalls.flatMap_right fun c => c.shelf sh
  simp only [QueueNode.shelf, QueueNode.wake]
  refine (hflat.append_left _).trans ?_
  rw [List.flatMap_cons, ← List.append_assoc, ← List.append_assoc]
  exact List.perm_append_comm.append_right _

theorem shelf_untrack {msg : Message Node Payload} {messageId : String}
    (hm : x.inFlight.get? messageId = some msg) (sh : Shelf) :
    (x.shelf sh).Perm ((if sh = .inFlight then [msg] else []) ++
      (x.untrack messageId).shelf sh) := by
  by_cases hs : sh = .inFlight
  · simp only [QueueNode.shelf, QueueNode.untrack, if_pos hs, List.singleton_append]
    exact ((Dict.entries_erase hm).map Prod.snd).append_right _
  · simp only [QueueNode.shelf, QueueNode.untrack, if_neg hs, List.nil_append]
    exact .refl _

theorem shelf_track {msg : Message Node Payload} (hm : x.inFlight.get? msg.messageId = none)
    (sh : Shelf) :
    ((x.track msg).shelf sh).Perm ((if sh = .inFlight then [msg] else []) ++ x.shelf sh) := by
  by_cases hs : sh = .inFlight
  · simp only [QueueNode.shelf, QueueNode.track, if_pos hs, Dict.entries_set_of_none hm,
      List.map_append, List.map_cons, List.map_nil, ← List.append_assoc]
    exact List.perm_append_comm.append_right _
  · simp only [QueueNode.shelf, QueueNode.track, if_neg hs, List.nil_append]
    exact .refl _

theorem shelf_poll (topic : String) (batchSize : Nat) (messages : List (Message Node Payload))
    (partitions : List Int) (sh : Shelf) :
    ((x.poll topic batchSize messages partitions).1.shelf sh).Perm (x.shelf sh) := by
  cases partitions with
  | nil => exact .refl _
  | cons p rest =>
    simp only [QueueNode.poll]
    split
    · exact .refl _
    · cases sh <;> exact shelf_suspend x _ _

end Shelf
end DistSync.Queue
