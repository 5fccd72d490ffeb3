import DistSync.Parts
import DistSync.Queue.Transition

/-! Which partitions the members of a group are assigned, and which of them somebody reads. The
members of a group share the partitions out among all of them, whatever topics they consume. -/
namespace DistSync.Queue
variable {Node Payload : Type}

/-- `my_index`: the place of a consumer among the members. -/
def rank (members : List String) (consumerId : String) : Nat :=
  if consumerId ∈ members then members.idxOf consumerId else 0

section Rank
variable {members : Finset String} {c c' : String}

theorem rank_of_mem (hc : c ∈ members) :
    rank (members.sort (· ≤ ·)) c = (members.sort (· ≤ ·)).idxOf c :=
  if_pos ((Finset.mem_sort _).mpr hc)

theorem rank_lt (hc : c ∈ members) : rank (members.sort (· ≤ ·)) c < members.card := by
  rw [rank_of_mem hc, ← Finset.length_sort (· ≤ ·)]
  exact List.idxOf_lt_length_of_mem ((Finset.mem_sort _).mpr hc)

theorem rank_inj (hc : c ∈ members) (hc' : c' ∈ members)
    (h : rank (members.sort (· ≤ ·)) c = rank (members.sort (· ≤ ·)) c') : c = c' := by
  rw [rank_of_mem hc, rank_of_mem hc'] at h
  exact (List.idxOf_inj ((Finset.mem_sort _).mpr hc)).mp h

theorem exists_rank {i : Nat} (hi : i < members.card) :
    ∃ c ∈ members, rank (members.sort (· ≤ ·)) c = i := by
  rw [← Finset.length_sort (· ≤ ·)] at hi
  have hc : (members.sort (· ≤ ·))[i] ∈ members := (Finset.mem_sort _).mp (List.getElem_mem hi)
  refine ⟨_, hc, ?_⟩
  rw [rank_of_mem hc]
  exact (Finset.sort_nodup _ _).idxOf_getElem i hi

theorem le_of_rank_lt (hc : c ∈ members) (hc' : c' ∈ members)
    (h : rank (members.sort (· ≤ ·)) c < rank (members.sort (· ≤ ·)) c') : c ≤ c' := by
  rw [rank_of_mem hc, rank_of_mem hc'] at h
  have hlt := List.idxOf_lt_length_of_mem ((Finset.mem_sort (· ≤ ·)).mpr hc')
  have hle := List.pairwise_iff_getElem.mp (Finset.pairwise_sort members (· ≤ ·)) _ _
    (h.trans hlt) hlt h
  rwa [List.getElem_idxOf, List.getElem_idxOf] at hle

theorem rank_eq_last (hc : c ∈ members) :
    rank (members.sort (· ≤ ·)) c = members.card - 1 ↔ ∀ c' ∈ members, c' ≤ c := by
  constructor
  · intro hlast c' hc'
    have hlt := rank_lt hc'
    by_cases hr : rank (members.sort (· ≤ ·)) c' = rank (members.sort (· ≤ ·)) c
    · exact (rank_inj hc' hc hr).le
    · exact le_of_rank_lt hc' hc (by omega)
  · intro hmax
    have hlt := rank_lt hc
    obtain ⟨c', hc', hlast⟩ :
        ∃ c' ∈ members, rank (members.sort (· ≤ ·)) c' = members.card - 1 :=
      exists_rank (by omega)
    by_contra hne
    have heq := le_antisymm (hmax c' hc') (le_of_rank_lt hc hc' (by omega))
    exact hne (heq ▸ hlast)

end Rank

theorem mem_range {start stop : Nat} {p : Int} :
    p ∈ QueueNode.range start stop ↔ ∃ k : Nat, p = k ∧ start ≤ k ∧ k < stop := by
  simp only [QueueNode.range, List.mem_map, List.mem_range'_1, Int.ofNat_eq_natCast]
  constructor
  · rintro ⟨k, hk, rfl⟩
    exact ⟨k, rfl, by omega⟩
  · rintro ⟨k, rfl, hk⟩
    exact ⟨k, by omega, rfl⟩

section Group
variable {cfg : Config Node Payload} {x : QueueNode Node Payload} {groupId : String}
  {group : ConsumerGroup} (hg : x.consumerGroups.get? groupId = some group)
  (hne : group.members ≠ ∅)
include hg hne

theorem assignedPartitions_eq (c : String) : x.assignedPartitions cfg groupId c =
    QueueNode.range
      (Parts.start cfg.numPartitions group.members.card
        (rank (group.members.sort (· ≤ ·)) c))
      (Parts.stop cfg.numPartitions group.members.card
        (rank (group.members.sort (· ≤ ·)) c)) := by
  rw [QueueNode.assignedPartitions, hg]
  dsimp only
  rw [if_neg hne, Finset.length_sort]
  rfl

theorem mem_assignedPartitions {c : String} (hc : c ∈ group.members) {p : Int} :
    p ∈ x.assignedPartitions cfg groupId c ↔ ∃ k : Nat, p = k ∧ k < cfg.numPartitions ∧
      rank (group.members.sort (· ≤ ·)) c =
        Parts.part cfg.numPartitions group.members.card k := by
  rw [assignedPartitions_eq hg hne, mem_range]
  simp only [Parts.mem_iff (rank_lt hc)]

theorem exists_assigned {p : Int} (h : 0 ≤ p ∧ p < cfg.numPartitions) :
    ∃ c ∈ group.members, p ∈ x.assignedPartitions cfg groupId c := by
  have hpos : 0 < group.members.card := Finset.card_pos.mpr (Finset.nonempty_iff_ne_empty.mpr hne)
  obtain ⟨c, hc, hr⟩ := exists_rank (Parts.part_lt cfg.numPartitions p.toNat hpos)
  exact ⟨c, hc, (mem_assignedPartitions hg hne hc).mpr ⟨p.toNat, by omega, by omega, hr⟩⟩

theorem assigned_bounds {c : String} (hc : c ∈ group.members) {p : Int}
    (hp : p ∈ x.assignedPartitions cfg groupId c) : 0 ≤ p ∧ p < cfg.numPartitions := by
  obtain ⟨k, rfl, hlt, -⟩ := (mem_assignedPartitions hg hne hc).mp hp
  omega

theorem eq_of_assigned {c c' : String} (hc : c ∈ group.members) (hc' : c' ∈ group.members)
    {p : Int} (hp : p ∈ x.assignedPartitions cfg groupId c)
    (hp' : p ∈ x.assignedPartitions cfg groupId c') : c = c' := by
  obtain ⟨k, rfl, -, hk⟩ := (mem_assignedPartitions hg hne hc).mp hp
  obtain ⟨k', hkk, -, hk'⟩ := (mem_assignedPartitions hg hne hc').mp hp'
  cases Int.ofNat.inj hkk
  exact rank_inj hc hc' (hk.trans hk'.symm)

/-- The members share the partitions out: no two have one in common, and each is somebody's. -/
theorem assigned_partition (cfg : Config Node Payload) :
    (∀ c ∈ group.members, ∀ c' ∈ group.members, c ≠ c' →
      List.Disjoint (x.assignedPartitions cfg groupId c) (x.assignedPartitions cfg groupId c')) ∧
    ∀ p : Int, (∃ c ∈ group.members, p ∈ x.assignedPartitions cfg groupId c) ↔
      0 ≤ p ∧ p < cfg.numPartitions := by
  constructor
  · intro c hc c' hc' hdiff p hp hp'
    exact hdiff (eq_of_assigned hg hne hc hc' hp hp')
  · intro p
    constructor
    · rintro ⟨c, hc, hp⟩
      exact assigned_bounds hg hne hc hp
    · exact exists_assigned hg hne

theorem length_assigned {c : String} (hc : c ∈ group.members) :
    (x.assignedPartitions cfg groupId c).length = cfg.numPartitions / group.members.card +
      if rank (group.members.sort (· ≤ ·)) c = group.members.card - 1
        then cfg.numPartitions % group.members.card else 0 := by
  rw [assignedPartitions_eq hg hne, QueueNode.range, List.length_map, List.length_range',
    Parts.length_eq (rank_lt hc)]

theorem assigned_ne_nil_iff {c : String} (hc : c ∈ group.members) :
    x.assignedPartitions cfg groupId c ≠ [] ↔
      group.members.card ≤ cfg.numPartitions ∨ ∀ c' ∈ group.members, c' ≤ c := by
  have hpos : 0 < group.members.card := Finset.card_pos.mpr ⟨c, hc⟩
  have hdiv : 0 < cfg.numPartitions / group.members.card ↔
      group.members.card ≤ cfg.numPartitions := Nat.div_pos_iff.trans (and_iff_right hpos)
  rw [← List.length_pos_iff, length_assigned hg hne hc, ← rank_eq_last hc, ← hdiv]
  have hsum := Nat.div_add_mod cfg.numPartitions group.members.card
  have hP := cfg.numPartitions_pos
  split
  · rename_i hlast
    refine iff_of_true ?_ (.inr hlast)
    by_cases hq : cfg.numPartitions / group.members.card = 0
    · rw [hq, Nat.mul_zero, Nat.zero_add] at hsum
      rw [hq, hsum, Nat.zero_add]
      exact hP
    · exact Nat.add_pos_left (Nat.pos_of_ne_zero hq) _
  · rename_i hlast
    rw [or_iff_left hlast, Nat.add_zero]

theorem length_le_succ_iff :
    (∀ c ∈ group.members, ∀ c' ∈ group.members,
      (x.assignedPartitions cfg groupId c).length ≤
        (x.assignedPartitions cfg groupId c').length + 1) ↔
      cfg.numPartitions % group.members.card ≤ 1 := by
  have hpos : 0 < group.members.card := Finset.card_pos.mpr (Finset.nonempty_iff_ne_empty.mpr hne)
  rw [← Parts.length_le_succ_iff hpos]
  constructor
  · intro h i hi j hj
    obtain ⟨c, hc, rfl⟩ := exists_rank hi
    obtain ⟨c', hc', rfl⟩ := exists_rank hj
    have := h c hc c' hc'
    rwa [length_assigned hg hne hc, length_assigned hg hne hc', ← Parts.length_eq hi,
      ← Parts.length_eq hj] at this
  · intro h c hc c' hc'
    rw [length_assigned hg hne hc, length_assigned hg hne hc', ← Parts.length_eq (rank_lt hc),
      ← Parts.length_eq (rank_lt hc')]
    exact h _ (rank_lt hc) _ (rank_lt hc')

/-- All members are assigned equally many partitions, and the last one those that are left; the
numbers are within one of each other exactly if at most one is left. -/
theorem assigned_lengths (cfg : Config Node Payload) :
    (∀ c ∈ group.members, (x.assignedPartitions cfg groupId c).length =
      cfg.numPartitions / group.members.card +
        if ∀ c' ∈ group.members, c' ≤ c then cfg.numPartitions % group.members.card else 0) ∧
    ((∀ c ∈ group.members, ∀ c' ∈ group.members,
      (x.assignedPartitions cfg groupId c).length ≤
        (x.assignedPartitions cfg groupId c').length + 1) ↔
      cfg.numPartitions % group.members.card ≤ 1) := by
  refine ⟨fun c hc => ?_, length_le_succ_iff hg hne⟩
  rw [length_assigned hg hne hc]
  exact congrArg _ (if_congr (rank_eq_last hc) rfl rfl)

end Group

def trio : ConsumerGroup := { groupId := "group", topic := "orders", members := {"a", "b", "c"} }

def trioNode : QueueNode Nat Nat := { consumerGroups := Dict.set ∅ "group" trio }

def fiveParts : Config Nat Nat := { plain with numPartitions := 5, numPartitions_pos := by decide }

theorem assigned_partition_trio :
    (∀ c ∈ trio.members, ∀ c' ∈ trio.members, c ≠ c' →
      List.Disjoint (trioNode.assignedPartitions fiveParts "group" c)
        (trioNode.assignedPartitions fiveParts "group" c')) ∧
    ∀ p : Int, (∃ c ∈ trio.members, p ∈ trioNode.assignedPartitions fiveParts "group" c) ↔
      0 ≤ p ∧ p < fiveParts.numPartitions :=
  assigned_partition rfl (by decide) fiveParts

theorem assigned_lengths_trio :
    (∀ c ∈ trio.members, (trioNode.assignedPartitions fiveParts "group" c).length =
      fiveParts.numPartitions / trio.members.card +
        if ∀ c' ∈ trio.members, c' ≤ c then fiveParts.numPartitions % trio.members.card else 0) ∧
    ((∀ c ∈ trio.members, ∀ c' ∈ trio.members,
      (trioNode.assignedPartitions fiveParts "group" c).length ≤
        (trioNode.assignedPartitions fiveParts "group" c').length + 1) ↔
      fiveParts.numPartitions % trio.members.card ≤ 1) :=
  assigned_lengths rfl (by decide) fiveParts

theorem not_even_trio : ¬ ∀ c ∈ trio.members, ∀ c' ∈ trio.members,
    (trioNode.assignedPartitions fiveParts "group" c).length ≤
      (trioNode.assignedPartitions fiveParts "group" c').length + 1 := by
  have hcard : trio.members.card = 3 := by decide +kernel
  rw [length_le_succ_iff (show trioNode.consumerGroups.get? "group" = some trio from rfl)
    (by decide), hcard]
  decide

end DistSync.Queue
