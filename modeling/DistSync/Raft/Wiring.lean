import Mathlib.Data.Finset.Card
import Mathlib.Data.Fintype.Card
import Mathlib.Data.List.FinRange

/-! Which addresses a node is configured with and who listens there. Where every node
knows all others, any quorum that elects meets any quorum that commits. -/
namespace DistSync.Raft

/-- `peers n` are the addresses node `n` was configured with; `route` tells which
node listens at an address. -/
structure Wiring (Id Addr : Type) where
  peers : Id → List Addr
  route : Addr → Option Id

/-- The peers of a node are the other nodes, each once, and at most the node itself. -/
structure Wiring.Complete {Id Addr : Type} (W : Wiring Id Addr) : Prop where
  nodup : ∀ n, ((W.peers n).map W.route).Nodup
  peer : ∀ n p, p ∈ W.peers n → ∃ m, W.route p = some m
  reached : ∀ n m, m ≠ n → ∃ p ∈ W.peers n, W.route p = some m

/-- The full mesh on `N` nodes, each listening at its own number. -/
def mesh (N : Nat) : Wiring (Fin N) (Fin N) where
  peers n := (List.finRange N).filter (· ≠ n)
  route := some

theorem mesh_complete (N : Nat) : (mesh N).Complete where
  nodup n := ((List.nodup_finRange N).filter _).map (Option.some_injective _)
  peer n p hp := ⟨p, rfl⟩
  reached n m hm := ⟨m, by simpa [mesh] using hm, rfl⟩

-- named, so that runs of three and five nodes are data without proofs
instance (priority := high) neZero_three : @NeZero Nat Zero.ofOfNat0 3 := ⟨Nat.succ_ne_zero 2⟩

instance (priority := high) neZero_five : @NeZero Nat Zero.ofOfNat0 5 := ⟨Nat.succ_ne_zero 4⟩

section Quorum
variable {Id Addr : Type} {W : Wiring Id Addr}

theorem Wiring.Complete.map_route (hW : W.Complete) {n : Id} {ps : List Addr}
    (hps : ps.Sublist (W.peers n)) : (ps.filterMap W.route).map some = ps.map W.route := by
  have hall : ∀ p ∈ ps, ∃ m, W.route p = some m := fun p hp => hW.peer n p (hps.subset hp)
  clear hps
  induction ps with
  | nil => rfl
  | cons p ps ih =>
    obtain ⟨m, hm⟩ := hall p List.mem_cons_self
    rw [List.filterMap_cons_some hm, List.map_cons, List.map_cons, hm,
      ih fun q hq => hall q (List.mem_cons_of_mem p hq)]

variable [DecidableEq Id]

def Wiring.listeners (W : Wiring Id Addr) (ps : List Addr) : Finset Id :=
  (ps.filterMap W.route).toFinset

theorem Wiring.mem_listeners {ps : List Addr} {m : Id} :
    m ∈ W.listeners ps ↔ ∃ p ∈ ps, W.route p = some m := by
  simp [Wiring.listeners]

def Wiring.members (W : Wiring Id Addr) (n : Id) : Finset Id := insert n (W.listeners (W.peers n))

theorem Wiring.Complete.mem_members (hW : W.Complete) (n m : Id) : m ∈ W.members n := by
  by_cases hm : m = n
  · exact hm ▸ Finset.mem_insert_self ..
  · exact Finset.mem_insert_of_mem (Wiring.mem_listeners.mpr (hW.reached n m hm))

theorem Wiring.Complete.members_eq (hW : W.Complete) (n m : Id) : W.members n = W.members m := by
  ext v
  simp only [hW.mem_members]

theorem Wiring.Complete.card_listeners (hW : W.Complete) {n : Id} {ps : List Addr}
    (hps : ps.Sublist (W.peers n)) : (W.listeners ps).card = ps.length := by
  have hmap := hW.map_route hps
  have hnodup : (ps.filterMap W.route).Nodup := by
    have hn := (hps.map W.route).nodup (hW.nodup n)
    rw [← hmap] at hn
    exact hn.of_map some
  rw [Wiring.listeners, List.toFinset_card_of_nodup hnodup, ← List.length_map (f := some), hmap,
    List.length_map]

theorem Wiring.Complete.more_than_half (hW : W.Complete) {n : Id} {A : Finset Id}
    (hA : ((W.peers n).length + 1) / 2 + 1 ≤ A.card) : (W.members n).card < 2 * A.card := by
  have hle := Finset.card_insert_le n (W.listeners (W.peers n))
  rw [hW.card_listeners (List.Sublist.refl _)] at hle
  rw [Wiring.members]
  omega

/-- A node that counts itself and these of its peers as a quorum counts at least half of
all: it may have counted itself twice, but then it has one more peer. -/
theorem Wiring.Complete.half (hW : W.Complete) {n : Id} {ps : List Addr}
    (hps : ps.Sublist (W.peers n)) (hq : ((W.peers n).length + 1) / 2 + 1 ≤ ps.length + 1) :
    (W.members n).card ≤ 2 * (insert n (W.listeners ps)).card := by
  have hall := hW.card_listeners (List.Sublist.refl (W.peers n))
  have hcounted := hW.card_listeners hps
  by_cases hn : n ∈ W.listeners (W.peers n)
  · have hle := Finset.card_le_card (Finset.subset_insert n (W.listeners ps))
    rw [Wiring.members, Finset.insert_eq_of_mem hn]
    omega
  · have hn' : n ∉ W.listeners ps := fun h => by
      obtain ⟨p, hp, hr⟩ := Wiring.mem_listeners.mp h
      exact hn (Wiring.mem_listeners.mpr ⟨p, hps.subset hp, hr⟩)
    rw [Wiring.members, Finset.card_insert_of_notMem hn, Finset.card_insert_of_notMem hn']
    omega

theorem Wiring.Complete.quorum_meets (hW : W.Complete) {n m : Id} {A B : Finset Id}
    (hA : ((W.peers n).length + 1) / 2 + 1 ≤ A.card) (hB : (W.members m).card ≤ 2 * B.card) :
    ∃ v, v ∈ A ∧ v ∈ B := by
  have hcard : (W.members n).card < A.card + B.card := by
    have hmore := hW.more_than_half hA
    rw [hW.members_eq m n] at hB
    omega
  obtain ⟨v, hv⟩ := Finset.inter_nonempty_of_card_lt_card_add_card
    (fun v _ => hW.mem_members n v) (fun v _ => hW.mem_members n v) hcard
  exact ⟨v, Finset.mem_inter.mp hv⟩

end Quorum
end DistSync.Raft
