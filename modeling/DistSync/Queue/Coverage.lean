import DistSync.Queue.Assignment

/-! Which partitions of a topic somebody reads. A group has one set of members for all its topics,
so a member that never consumes a topic may still be assigned partitions of it. -/
namespace DistSync.Queue
variable {Node Payload : Type} {cfg : Config Node Payload}
  {s t : Service Node Payload}

section Groups
variable (x : QueueNode Node Payload)

@[simp] theorem groups_suspend (c : Call Node Payload) :
    (x.suspend c).consumerGroups = x.consumerGroups := rfl

@[simp] theorem groups_wake (k : Nat) : (x.wake k).consumerGroups = x.consumerGroups := rfl

@[simp] theorem groups_track (msg : Message Node Payload) :
    (x.track msg).consumerGroups = x.consumerGroups := rfl

@[simp] theorem groups_untrack (messageId : String) :
    (x.untrack messageId).consumerGroups = x.consumerGroups := rfl

@[simp] theorem groups_produce (msg : Message Node Payload) :
    (x.produce cfg msg).consumerGroups = x.consumerGroups := by
  unfold QueueNode.produce
  split <;> rfl

@[simp] theorem groups_produceBatch (msgs : List (Message Node Payload)) :
    (x.produceBatch msgs).consumerGroups = x.consumerGroups := rfl

@[simp] theorem groups_poll (topic : String) (batchSize : Nat)
    (messages : List (Message Node Payload)) (partitions : List Int) :
    (x.poll topic batchSize messages partitions).1.consumerGroups = x.consumerGroups := by
  cases partitions with
  | nil => rfl
  | cons p rest =>
    simp only [QueueNode.poll]
    split <;> rfl

theorem groups_negativeAcknowledge {x y : QueueNode Node Payload} {messageId : String}
    {timedOut : Option (List String)} (h : x.negativeAcknowledge messageId timedOut = some y) :
    y.consumerGroups = x.consumerGroups := by
  obtain ⟨msg, -, rfl⟩ := Option.map_eq_some_iff.mp h
  rfl

@[simp] theorem groups_checkTimedOut (ids : List String) :
    (x.checkTimedOut ids).consumerGroups = x.consumerGroups := by
  induction ids with
  | nil => rfl
  | cons messageId ids ih =>
    rw [QueueNode.checkTimedOut]
    split
    · rename_i y hy
      exact groups_negativeAcknowledge hy
    · exact ih

end Groups

structure Joined where
  group : String
  topic : String
  consumer : String
deriving DecidableEq

variable [DecidableEq Node]

def Action.joined (n : Node) : Action Node Payload → Option Joined
  | .consume m topic groupId consumerId _ _ =>
    if m = n then some { group := groupId, topic := topic, consumer := consumerId } else none
  | _ => none

def joins (n : Node) (as : List (Action Node Payload)) : List Joined :=
  as.filterMap fun a => a.joined n

/-- `_consumer_groups[group_id].members`. -/
def QueueNode.members (x : QueueNode Node Payload) (groupId : String) : Finset String :=
  ((x.consumerGroups.get? groupId).map ConsumerGroup.members).getD ∅

omit [DecidableEq Node] in
theorem members_joinGroup (x : QueueNode Node Payload) (groupId topic consumerId g : String) :
    (x.joinGroup groupId topic consumerId).members g =
      if groupId = g then insert consumerId (x.members g) else x.members g := by
  rw [QueueNode.members, QueueNode.joinGroup]
  dsimp only
  rw [Dict.get?_set]
  split
  · rename_i hg
    subst hg
    rw [QueueNode.members]
    cases x.consumerGroups.get? groupId <;> rfl
  · rfl

omit [DecidableEq Node] in
theorem members_congr {x y : QueueNode Node Payload} (h : y.consumerGroups = x.consumerGroups)
    (g : String) : y.members g = x.members g := by
  rw [QueueNode.members, QueueNode.members, h]

theorem members_move {n : Node} {y : QueueNode Node Payload} {r : Redis Node Payload}
    {evs : List (Event Node Payload)} (hy : y.consumerGroups = (s.nodes n).consumerGroups)
    (m : Node) (g : String) : ((s.move n y r evs).nodes m).members g = (s.nodes m).members g := by
  by_cases hm : m = n
  · subst hm
    rw [move_self]
    exact members_congr hy g
  · rw [move_of_ne _ _ _ _ hm]

theorem mem_members_step {a : Action Node Payload} (hs : (queue cfg).step s a = some t) (n : Node)
    (g c : String) : c ∈ (t.nodes n).members g ↔
      c ∈ (s.nodes n).members g ∨ ∃ j ∈ a.joined n, j.group = g ∧ j.consumer = c := by
  cases step_cases hs with
  | consume m topic groupId consumerId partitions batchSize =>
    by_cases hm : n = m
    · subst hm
      rw [Service.consume, move_self, QueueNode.consume, members_congr (groups_poll ..),
        members_joinGroup, Action.joined, if_pos rfl]
      by_cases hg : groupId = g
      · simp [hg, or_comm, eq_comm]
      · simp [hg]
    · simp [Service.consume, move_of_ne _ _ _ _ hm, Action.joined, Ne.symm hm]
  | negativeAcknowledge m messageId y hy =>
    rw [members_move (groups_negativeAcknowledge hy)]
    simp [Action.joined]
  | acknowledgeUnknown => simp [Action.joined]
  | negativeAcknowledgeUnknown => simp [Action.joined]
  | lpop m k topic p rest batchSize messages raw hk hq r hr =>
    rw [members_move (by simp [hr])]
    simp [Action.joined]
  | _ =>
    rw [members_move (by simp)]
    simp [Action.joined]

theorem mem_members_run {as : List (Action Node Payload)} (hr : (queue cfg).run s as = some t)
    (n : Node) (g c : String) : c ∈ (t.nodes n).members g ↔
      c ∈ (s.nodes n).members g ∨ ∃ j ∈ joins n as, j.group = g ∧ j.consumer = c := by
  induction as generalizing s with
  | nil =>
    cases hr
    simp [joins]
  | cons a as ih =>
    obtain ⟨u, hu, hr⟩ := Option.bind_eq_some_iff.mp hr
    rw [ih hr, mem_members_step hu]
    have hcons : joins n (a :: as) = (a.joined n).toList ++ joins n as := by
      rw [joins, List.filterMap_cons]
      cases a.joined n <;> rfl
    rw [hcons]
    cases a.joined n <;> simp [or_assoc]

def consumersOf (js : List Joined) (groupId : String) : Finset String :=
  ((js.filter fun j => j.group = groupId).map Joined.consumer).toFinset

theorem mem_consumersOf {js : List Joined} {groupId c : String} :
    c ∈ consumersOf js groupId ↔ ∃ j ∈ js, j.group = groupId ∧ j.consumer = c := by
  simp [consumersOf, and_assoc]

/-- Those who consumed a topic for a group are together assigned all partitions. -/
def QueueNode.Covers (cfg : Config Node Payload) (x : QueueNode Node Payload)
    (js : List Joined) : Prop :=
  ∀ j ∈ js, ∀ p : Int, (∃ c, ⟨j.group, j.topic, c⟩ ∈ js ∧
      p ∈ x.assignedPartitions cfg j.group c) ↔
    0 ≤ p ∧ p < cfg.numPartitions

/-- All consumers of a group consumed all its topics; if there are more than partitions, the last
of them did. -/
def ReadByAll (numPartitions : Nat) (js : List Joined) : Prop :=
  ∀ j ∈ js, ∀ c ∈ consumersOf js j.group,
    ((consumersOf js j.group).card ≤ numPartitions ∨ ∀ c' ∈ consumersOf js j.group, c' ≤ c) →
      ⟨j.group, j.topic, c⟩ ∈ js

omit [DecidableEq Node] in
theorem covers_iff {x : QueueNode Node Payload} {js : List Joined}
    (hm : ∀ g c, c ∈ x.members g ↔ ∃ j ∈ js, j.group = g ∧ j.consumer = c) :
    x.Covers cfg js ↔ ReadByAll cfg.numPartitions js := by
  refine forall_congr' fun j => imp_congr_right fun hj => ?_
  have hmem : x.members j.group = consumersOf js j.group := by
    ext c
    rw [hm, mem_consumersOf]
  have hne : x.members j.group ≠ ∅ :=
    Finset.ne_empty_of_mem ((hm _ j.consumer).mpr ⟨j, hj, rfl, rfl⟩)
  rw [← hmem]
  unfold QueueNode.members at hne hm ⊢
  cases hg : x.consumerGroups.get? j.group with
  | none =>
    rw [hg] at hne
    exact absurd rfl hne
  | some group =>
    rw [hg] at hne
    have hjoined (c : String) (hc : ⟨j.group, j.topic, c⟩ ∈ js) : c ∈ group.members := by
      simpa [hg] using (hm j.group c).mpr ⟨_, hc, rfl, rfl⟩
    constructor
    · intro hcov c hc hsome
      obtain ⟨p, hp⟩ := List.exists_mem_of_ne_nil _
        ((assigned_ne_nil_iff hg hne hc).mpr hsome)
      obtain ⟨c', hc', hp'⟩ := (hcov p).mpr (assigned_bounds hg hne hc hp)
      cases eq_of_assigned hg hne hc (hjoined c' hc') hp hp'
      exact hc'
    · intro hread p
      constructor
      · rintro ⟨c, hc, hp⟩
        exact assigned_bounds hg hne (hjoined c hc) hp
      · intro hp
        obtain ⟨c, hc, hp⟩ := exists_assigned hg hne hp
        have hsome := (assigned_ne_nil_iff hg hne hc).mp (List.ne_nil_of_mem hp)
        exact ⟨c, hread c hc hsome, hp⟩

theorem covers_run_iff {past : List (Action Node Payload)}
    (hs : (queue cfg).run (queue cfg).init past = some s) (n : Node) :
    (s.nodes n).Covers cfg (joins n past) ↔ ReadByAll cfg.numPartitions (joins n past) := by
  refine covers_iff fun g c => ?_
  rw [mem_members_run hs]
  exact or_iff_right (by simp [queue, QueueNode.members])

/-- At each moment of a run those who consumed a topic are assigned all partitions, exactly if at
each moment all consumers of a group had consumed all its topics. -/
theorem covers_along_iff {as : List (Action Node Payload)}
    (hr : (queue cfg).run (queue cfg).init as = some t) :
    (∀ past s, past <+: as → (queue cfg).run (queue cfg).init past = some s →
      ∀ n, (s.nodes n).Covers cfg (joins n past)) ↔
    ∀ past, past <+: as → ∀ n, ReadByAll cfg.numPartitions (joins n past) := by
  constructor
  · intro h past hp n
    obtain ⟨s, hs⟩ := System.run_prefix hr hp
    exact (covers_run_iff hs n).mp (h past s hp hs n)
  · exact fun h past s hp hs n => (covers_run_iff hs n).mpr (h past hp n)

/-- Two consumers of one topic. -/
def sharedTopic : List (Action Nat Nat) :=
  [.consume 0 "orders" "group" "a" none 1, .consume 0 "orders" "group" "b" none 1]

theorem covers_sharedTopic : (∀ past s, past <+: sharedTopic →
      (queue plain).run (queue plain).init past = some s →
      ∀ n, (s.nodes n).Covers plain (joins n past)) ↔
    ∀ past, past <+: sharedTopic →
      ∀ n, ReadByAll (plain : Config Nat Nat).numPartitions (joins n past) :=
  covers_along_iff rfl

/-- Two consumers of one group with a topic each. -/
def twoTopics : List (Action Nat Nat) :=
  [.consume 0 "orders" "group" "a" none 1, .consume 0 "events" "group" "b" none 1]

theorem not_covers_twoTopics : ∃ s, (queue plain).run (queue plain).init twoTopics = some s ∧
    ¬ (s.nodes 0).Covers plain (joins 0 twoTopics) := by
  obtain ⟨s, hs⟩ : ∃ s, (queue plain).run (queue plain).init twoTopics = some s := ⟨_, rfl⟩
  refine ⟨s, hs, ?_⟩
  rw [covers_run_iff hs]
  unfold ReadByAll
  decide +kernel

end DistSync.Queue
