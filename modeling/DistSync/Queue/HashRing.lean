import Mathlib.Data.Finset.Basic
import DistSync.Clockwise
import DistSync.Dict

/-! The consistent hash ring of the queue. Its sorted points are a cache of the keys of
its dictionary; a key belongs to the node at the first point met from the key's hash on. -/
namespace DistSync.Queue

structure ConsistentHashRing where
  virtualNodes : Nat := 150
  ring : Dict Nat String
  sortedKeys : List Nat
  sorted : sortedKeys = ring.keys.insertionSort (· ≤ ·)

/-- A call of `add_node` or of `remove_node`. -/
inductive RingCall
  | addNode (nodeId : String)
  | removeNode (nodeId : String)
  deriving DecidableEq

def RingCall.nodeId : RingCall → String
  | .addNode n => n
  | .removeNode n => n

/-- What a call makes of the set of nodes that are present. -/
def RingCall.members (S : Finset String) : RingCall → Finset String
  | .addNode n => insert n S
  | .removeNode n => S.erase n

namespace ConsistentHashRing

def init (virtualNodes : Nat) : ConsistentHashRing where
  virtualNodes := virtualNodes
  ring := ∅
  sortedKeys := []
  sorted := rfl

/-- Both methods end by sorting the keys anew. -/
def withRing (r : ConsistentHashRing) (ring : Dict Nat String) : ConsistentHashRing where
  virtualNodes := r.virtualNodes
  ring := ring
  sortedKeys := ring.keys.insertionSort (· ≤ ·)
  sorted := rfl

/-- `f"{node_id}:{i}"`. -/
def virtualKey (nodeId : String) (i : Nat) : String := nodeId ++ ":" ++ toString i

-- `_hash` is MD5 in the source; nothing below depends on which function it is
variable (hash : String → Nat)

/-- The points of a node, in the order in which `add_node` assigns them. -/
def points (virtualNodes : Nat) (nodeId : String) : List Nat :=
  (List.range virtualNodes).map fun i => hash (virtualKey nodeId i)

def addNode (r : ConsistentHashRing) (nodeId : String) : ConsistentHashRing :=
  r.withRing ((points hash r.virtualNodes nodeId).foldl (fun ring h => ring.set h nodeId) r.ring)

def removeNode (r : ConsistentHashRing) (nodeId : String) : ConsistentHashRing :=
  r.withRing ((r.ring.keysWhere (· = nodeId)).foldl Dict.erase r.ring)

def getNode (r : ConsistentHashRing) (key : String) : Option String :=
  if r.ring.entries = [] then none
  else match r.sortedKeys.find? (hash key ≤ ·) with
    | some ringKey => r.ring.get? ringKey
    | none => r.sortedKeys.head?.bind r.ring.get?

def call (r : ConsistentHashRing) : RingCall → ConsistentHashRing
  | .addNode n => r.addNode hash n
  | .removeNode n => r.removeNode n

def after (virtualNodes : Nat) (calls : List RingCall) : ConsistentHashRing :=
  calls.foldl (call hash) (init virtualNodes)

variable {hash} {r r' : ConsistentHashRing} {n m k : String} {h : Nat}

@[simp] theorem virtualNodes_call (c : RingCall) :
    (r.call hash c).virtualNodes = r.virtualNodes := by
  cases c <;> rfl

theorem get?_addNode : (r.addNode hash n).ring.get? h =
    if h ∈ points hash r.virtualNodes n then some n else r.ring.get? h :=
  Dict.get?_foldl_set _ n r.ring h

theorem get?_removeNode : (r.removeNode n).ring.get? h =
    if r.ring.get? h = some n then none else r.ring.get? h := by
  have hmem : h ∈ r.ring.keysWhere (· = n) ↔ r.ring.get? h = some n := by
    simp [Dict.mem_keysWhere]
  rw [removeNode, withRing, Dict.get?_foldl_erase]
  simp only [hmem]

section Owner

def occupied (r : ConsistentHashRing) : Set Nat := {h | (r.ring.get? h).isSome}

theorem mem_occupied : h ∈ r.occupied ↔ (r.ring.get? h).isSome := Iff.rfl

theorem mem_sortedKeys : h ∈ r.sortedKeys ↔ h ∈ r.occupied := by
  rw [r.sorted, List.mem_insertionSort, Dict.mem_keys, mem_occupied]

theorem occupied_eq (r : ConsistentHashRing) : r.occupied = {h | h ∈ r.sortedKeys} :=
  Set.ext fun _ => mem_sortedKeys.symm

theorem isNext_sortedKeys {place : Nat} (hnext : nextIn place r.sortedKeys = some h) :
    IsNext place r.occupied h := by
  have hsorted : r.sortedKeys.Pairwise (· ≤ ·) :=
    r.sorted ▸ List.pairwise_insertionSort (· ≤ ·) _
  exact r.occupied_eq ▸ isNext_nextIn hsorted hnext

theorem entries_eq_nil_iff : r.ring.entries = [] ↔ r.occupied = ∅ := by
  rw [← not_iff_not, ← Ne, Dict.entries_ne_nil, ← Ne, ← Set.nonempty_iff_ne_empty]
  simp only [Dict.mem_keys, ← mem_occupied]
  rfl

/-- Walking the sorted points with the wrap-around is going to the next one on the circle. -/
theorem getNode_eq (r : ConsistentHashRing) (k : String) :
    r.getNode hash k = (nextIn (hash k) r.sortedKeys).bind r.ring.get? := by
  by_cases hnil : r.ring.entries = []
  · have hsorted : r.sortedKeys = [] := by rw [r.sorted, Dict.keys, hnil]; rfl
    rw [getNode, if_pos hnil, hsorted]
    rfl
  · rw [getNode, if_neg hnil, nextIn]
    cases r.sortedKeys.find? (hash k ≤ ·) <;> rfl

theorem getNode_of_isNext (hp : IsNext (hash k) r.occupied h) :
    r.getNode hash k = r.ring.get? h := by
  cases hnext : nextIn (hash k) r.sortedKeys with
  | none =>
    have hmem := mem_sortedKeys.mpr hp.mem
    rw [nextIn_eq_none.mp hnext] at hmem
    exact absurd hmem List.not_mem_nil
  | some h' =>
    rw [getNode_eq, hnext, Option.bind_some, hp.unique (isNext_sortedKeys hnext)]

theorem getNode_of_empty (he : r.occupied = ∅) : r.getNode hash k = none := by
  rw [getNode, if_pos (entries_eq_nil_iff.mpr he)]

theorem exists_isNext (place : Nat) (he : r.occupied ≠ ∅) :
    ∃ h, IsNext place r.occupied h := by
  cases hnext : nextIn place r.sortedKeys with
  | none =>
    rw [nextIn_eq_none] at hnext
    exact absurd (by simp [occupied_eq, hnext]) he
  | some h => exact ⟨h, isNext_sortedKeys hnext⟩

theorem getNode_congr (hget : ∀ h, r.ring.get? h = r'.ring.get? h) :
    r.getNode hash k = r'.getNode hash k := by
  have hset : r.occupied = r'.occupied := by simp only [occupied, hget]
  by_cases he : r.occupied = ∅
  · rw [getNode_of_empty he, getNode_of_empty (hset ▸ he)]
  · obtain ⟨h, hp⟩ := exists_isNext (hash k) he
    rw [getNode_of_isNext hp, getNode_of_isNext (hset ▸ hp), hget]

theorem getNode_addNode : (r.addNode hash n).getNode hash k = r.getNode hash k ∨
    (r.addNode hash n).getNode hash k = some n := by
  have hsub : r.occupied ⊆ (r.addNode hash n).occupied := by
    intro h hh
    rw [mem_occupied, get?_addNode]
    split
    · rfl
    · exact hh
  by_cases he : (r.addNode hash n).occupied = ∅
  · exact .inl ((getNode_of_empty he).trans
      (getNode_of_empty (Set.subset_eq_empty hsub he)).symm)
  · obtain ⟨h, hp⟩ := exists_isNext (hash k) he
    rw [getNode_of_isNext hp, get?_addNode]
    split
    · exact .inr rfl
    · rename_i hold
      have hmem : h ∈ r.occupied := by
        have hm := hp.mem
        rwa [mem_occupied, get?_addNode, if_neg hold] at hm
      exact .inl (getNode_of_isNext (hp.of_subset hsub hmem)).symm

theorem getNode_removeNode (hk : r.getNode hash k ≠ some n) :
    (r.removeNode n).getNode hash k = r.getNode hash k := by
  have hsub : (r.removeNode n).occupied ⊆ r.occupied := by
    intro h hh
    rw [mem_occupied, get?_removeNode] at hh
    split at hh
    · cases hh
    · exact hh
  by_cases he : r.occupied = ∅
  · rw [getNode_of_empty he, getNode_of_empty (Set.subset_eq_empty hsub he)]
  · obtain ⟨h, hp⟩ := exists_isNext (hash k) he
    rw [getNode_of_isNext hp] at hk ⊢
    have hkeep : (r.removeNode n).ring.get? h = r.ring.get? h := by rw [get?_removeNode, if_neg hk]
    have hmem : h ∈ (r.removeNode n).occupied := by
      rw [mem_occupied, hkeep]
      exact hp.mem
    rw [getNode_of_isNext (hp.of_subset hsub hmem), hkeep]

end Owner

/-- A join moves keys to the new node only, a leave only the keys of the node that left. -/
theorem ring_moves_minimally (hash : String → Nat) (virtualNodes : Nat) (calls : List RingCall)
    (n k : String) :
    (((after hash virtualNodes calls).addNode hash n).getNode hash k =
        (after hash virtualNodes calls).getNode hash k ∨
      ((after hash virtualNodes calls).addNode hash n).getNode hash k = some n) ∧
    ((after hash virtualNodes calls).getNode hash k ≠ some n →
      ((after hash virtualNodes calls).removeNode n).getNode hash k =
        (after hash virtualNodes calls).getNode hash k) :=
  ⟨getNode_addNode, getNode_removeNode⟩

section History
variable {v : Nat} {calls : List RingCall}

def present (calls : List RingCall) : Finset String := calls.foldl RingCall.members ∅

/-- No two nodes that the calls mention share a point. -/
def Separated (hash : String → Nat) (v : Nat) (calls : List RingCall) : Prop :=
  ∀ c ∈ calls, ∀ d ∈ calls, ∀ h ∈ points hash v c.nodeId, h ∈ points hash v d.nodeId →
    c.nodeId = d.nodeId

theorem virtualNodes_after : (after hash v calls).virtualNodes = v := by
  induction calls using List.reverseRecOn with
  | nil => rfl
  | append_singleton calls c ih =>
    rw [after, List.foldl_append]
    exact (virtualNodes_call c).trans ih

theorem mentioned_of_present (hn : n ∈ present calls) : ∃ c ∈ calls, c.nodeId = n := by
  induction calls using List.reverseRecOn with
  | nil => exact absurd hn (Finset.notMem_empty n)
  | append_singleton calls c ih =>
    have hold (hn : n ∈ present calls) : ∃ c' ∈ calls ++ [c], c'.nodeId = n := by
      obtain ⟨c', hc', he⟩ := ih hn
      exact ⟨c', List.mem_append_left _ hc', he⟩
    rw [present, List.foldl_append] at hn
    cases c with
    | addNode m =>
      cases Finset.mem_insert.mp hn with
      | inl he => exact ⟨_, List.mem_append_right _ List.mem_cons_self, he.symm⟩
      | inr hn => exact hold hn
    | removeNode m => exact hold (Finset.mem_of_mem_erase hn)

/-- Without collisions the dictionary holds the points of the nodes present, whatever the calls
that led there. -/
theorem get?_after (hsep : Separated hash v calls) : (after hash v calls).ring.get? h = some n ↔
    n ∈ present calls ∧ h ∈ points hash v n := by
  induction calls using List.reverseRecOn generalizing n with
  | nil => simp [after, present, init]
  | append_singleton calls c ih =>
    have ih {n : String} := @ih n fun c hc d hd =>
      hsep c (List.mem_append_left _ hc) d (List.mem_append_left _ hd)
    have hafter : after hash v (calls ++ [c]) = (after hash v calls).call hash c := by
      rw [after, List.foldl_append]
      rfl
    have hpresent : present (calls ++ [c]) = RingCall.members (present calls) c := by
      rw [present, List.foldl_append]
      rfl
    -- a point of `c`'s node that some node present holds is that node's own
    have hown (hn : n ∈ present calls) (hp : h ∈ points hash v n)
        (hc : h ∈ points hash v c.nodeId) : n = c.nodeId := by
      obtain ⟨d, hd, rfl⟩ := mentioned_of_present hn
      exact hsep d (List.mem_append_left _ hd) c (List.mem_append_right _ List.mem_cons_self)
        h hp hc
    rw [hafter, hpresent]
    cases c with
    | addNode m =>
      change ((after hash v calls).addNode hash m).ring.get? h = some n ↔
        n ∈ insert m (present calls) ∧ _
      rw [get?_addNode, virtualNodes_after, Finset.mem_insert]
      split
      · rename_i hm
        constructor
        · rintro ⟨⟩
          exact ⟨.inl rfl, hm⟩
        · rintro ⟨hn, hp⟩
          cases hn with
          | inl hn => rw [hn]
          | inr hn => rw [hown hn hp hm]; rfl
      · rename_i hm
        rw [ih]
        refine and_congr_left fun hp => (or_iff_right ?_).symm
        rintro rfl
        exact hm hp
    | removeNode m =>
      change ((after hash v calls).removeNode m).ring.get? h = some n ↔
        n ∈ (present calls).erase m ∧ _
      rw [get?_removeNode, Finset.mem_erase]
      split
      · rename_i hm
        refine iff_of_false (by simp) fun hn => hn.1.1 ?_
        have hsame := hm.symm.trans (ih.mpr ⟨hn.1.2, hn.2⟩)
        exact (Option.some.inj hsame).symm
      · rename_i hm
        rw [ih]
        refine and_congr_left fun hp => (and_iff_right_of_imp ?_).symm
        rintro hn rfl
        exact hm (ih.mpr ⟨hn, hp⟩)

end History

/-- Two histories that leave the same nodes behind route every key alike, where the points of all
nodes they mention are pairwise distinct. -/
theorem ring_forgets_history (hash : String → Nat) (v : Nat) (calls calls' : List RingCall)
    (hdistinct : ∀ c ∈ calls ++ calls', ∀ d ∈ calls ++ calls', ∀ i < v, ∀ j < v,
      hash (virtualKey c.nodeId i) = hash (virtualKey d.nodeId j) → c.nodeId = d.nodeId ∧ i = j)
    (hpresent : present calls = present calls') (k : String) :
    (after hash v calls).getNode hash k = (after hash v calls').getNode hash k := by
  have hsep : Separated hash v (calls ++ calls') := by
    intro c hc d hd h hch hdh
    obtain ⟨i, hi, rfl⟩ := List.mem_map.mp hch
    obtain ⟨j, hj, heq⟩ := List.mem_map.mp hdh
    exact (hdistinct c hc d hd i (List.mem_range.mp hi) j (List.mem_range.mp hj) heq.symm).1
  have hleft : Separated hash v calls := fun c hc d hd =>
    hsep c (List.mem_append_left _ hc) d (List.mem_append_left _ hd)
  have hright : Separated hash v calls' := fun c hc d hd =>
    hsep c (List.mem_append_right _ hc) d (List.mem_append_right _ hd)
  refine getNode_congr fun h => Option.ext fun n => ?_
  rw [get?_after hleft, get?_after hright, hpresent]

theorem ring_forgets_history_two : let hash := fun s : String => s.length
    (after hash 1 [.addNode "a", .removeNode "a", .addNode "bb", .addNode "a"]).getNode hash "k" =
      (after hash 1 [.addNode "a", .addNode "bb"]).getNode hash "k" :=
  ring_forgets_history _ _ _ _ (by decide) (by decide) _

end ConsistentHashRing
end DistSync.Queue
