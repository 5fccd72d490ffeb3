import Mathlib.Data.Fin.VecNotation
import DistSync.Raft.Transition
import DistSync.Raft.Handlers

/-! The cluster as it is started: every node computes its peers from the advertised
addresses and the address it binds, and so may be a peer of its own. A leader then
hands itself the requests by which it makes others follow. -/
namespace DistSync.Raft
open RaftNode

/-- The settings of `NodeConfig`, with their defaults. -/
structure NodeConfig where
  nodeId : String := "node-1"
  host : String := "0.0.0.0"
  port : Nat := 8001
  clusterNodes : List String := ["node-1:8001"]

/-- `f"{host}:{port}"`. -/
def hostPort (host : String) (port : Nat) : String := host ++ ":" ++ toString port

/-- The peer list of `DistributedNode.__init__`. -/
def NodeConfig.peers (cfg : NodeConfig) : List String :=
  cfg.clusterNodes.filter fun n => n ≠ hostPort cfg.host cfg.port

/-- `N` nodes with the host and the port under which each is advertised. -/
structure Deployment (N : Nat) where
  host : Fin N → String
  port : Fin N → Nat
  distinct : Function.Injective fun n => hostPort (host n) (port n)

namespace Deployment
variable {N : Nat} (D : Deployment N)

def address (n : Fin N) : String := hostPort (D.host n) (D.port n)

/-- `NODE_HOST` is 0.0.0.0 everywhere, and `CLUSTER_NODES` is the same for all. -/
def config (n : Fin N) : NodeConfig where
  nodeId := "node-" ++ toString (n.val + 1)
  host := "0.0.0.0"
  port := D.port n
  clusterNodes := (List.finRange N).map D.address

def wiring : Wiring (Fin N) String where
  peers n := (D.config n).peers
  route a := (List.finRange N).find? fun n => D.address n = a

theorem route_address (n : Fin N) : D.wiring.route (D.address n) = some n := by
  have hs : ((List.finRange N).find? fun m => D.address m = D.address n).isSome := by
    rw [List.find?_isSome]
    exact ⟨n, List.mem_finRange n, decide_eq_true rfl⟩
  obtain ⟨m, hm⟩ := Option.isSome_iff_exists.mp hs
  have heq : D.address m = D.address n := by simpa using List.find?_some hm
  rw [D.distinct heq] at hm
  exact hm

/-- The peer list leaves the node itself out only if it is advertised as it is bound. -/
theorem address_mem_peers (n : Fin N) :
    D.address n ∈ D.wiring.peers n ↔ D.host n ≠ "0.0.0.0" := by
  have hmem : D.address n ∈ (List.finRange N).map D.address :=
    List.mem_map_of_mem (List.mem_finRange n)
  have heq : D.address n = hostPort "0.0.0.0" (D.port n) ↔ D.host n = "0.0.0.0" := by
    simp only [address, hostPort, String.append_assoc, String.append_left_inj]
  simp only [wiring, NodeConfig.peers, List.mem_filter, config, hmem, true_and, decide_not,
    Bool.not_eq_true', decide_eq_false_iff_not, heq, ne_eq]

/-- Where no address is bound as it is advertised, each node has all nodes as its peers. -/
theorem peers_eq (hbind : ∀ n m, D.address m ≠ hostPort (D.config n).host (D.config n).port)
    (n : Fin N) : D.wiring.peers n = (List.finRange N).map D.address := by
  refine List.filter_eq_self.mpr fun a ha => ?_
  obtain ⟨m, -, rfl⟩ := List.mem_map.mp ha
  exact decide_eq_true (hbind n m)

theorem wiring_complete
    (hbind : ∀ n m, D.address m ≠ hostPort (D.config n).host (D.config n).port) : D.wiring.Complete := by
  have hpeers := D.peers_eq hbind
  have hroute : D.wiring.route ∘ D.address = some := funext D.route_address
  constructor
  · intro n
    rw [hpeers, List.map_map, hroute]
    exact (List.nodup_finRange N).map (Option.some_injective _)
  · intro n p hp
    rw [hpeers] at hp
    obtain ⟨m, -, rfl⟩ := List.mem_map.mp hp
    exact ⟨m, D.route_address m⟩
  · intro n m _
    refine ⟨D.address m, ?_, D.route_address m⟩
    rw [hpeers]
    exact List.mem_map_of_mem (List.mem_finRange m)

end Deployment

section Deposed
variable {Id Addr Cmd : Type} [DecidableEq Id] [DecidableEq Addr]
variable {W : Wiring Id Addr} {s t : Cluster Id Addr Cmd} {a : Action Id Cmd}

def DeposedByHigherTerm (s : Cluster Id Addr Cmd) (_ : Action Id Cmd) (t : Cluster Id Addr Cmd) :
    Prop :=
  ∀ n, (s.nodes n).state = .leader → (t.nodes n).state ≠ .leader →
    (s.nodes n).currentTerm < (t.nodes n).currentTerm

/-- No LEADER is handed an `append_entries` that carries its own term. -/
def NoOwnTermAppend (W : Wiring Id Addr) (s : Cluster Id Addr Cmd) (a : Action Id Cmd) : Prop :=
  ∀ d ∈ appendRequestAt W s a, (s.nodes d.1).state = .leader →
    d.2.term ≠ (s.nodes d.1).currentTerm

instance [Fintype Id] (a : Action Id Cmd) : Decidable (DeposedByHigherTerm s a t) :=
  inferInstanceAs (Decidable (∀ _, _))

def RaftNode.Yields (x y : RaftNode Id Addr Cmd) : Prop :=
  x.state = .leader → y.state ≠ .leader → x.currentTerm < y.currentTerm

omit [DecidableEq Id] [DecidableEq Addr] in
theorem RaftNode.Yields.of_state {x y : RaftNode Id Addr Cmd}
    (h : x.state = .leader → y.state = .leader) : x.Yields y :=
  fun hx hy => absurd (h hx) hy

omit [DecidableEq Addr] in
theorem yields_handleVoteRequest (x : RaftNode Id Addr Cmd) (req : VoteRequest Id) :
    x.Yields (x.handleVoteRequest req).1 := by
  obtain ⟨T, vote, state, hb, hT, he⟩ := handleVoteRequest_frame x req
  rw [he]
  cases hT with
  | inl hsame => exact .of_state fun hx => hsame.2.1.trans hx
  | inr hnew => exact fun _ _ => hnew.1

theorem yields_handleVoteResponse (x : RaftNode Id Addr Cmd) (resp : VoteResponse Id) :
    x.Yields (x.handleVoteResponse resp) := by
  refine .of_state fun hx => ?_
  rwa [handleVoteResponse, if_pos (by rw [hx]; decide)]

omit [DecidableEq Id] [DecidableEq Addr] in
theorem yields_handleAppendEntries (x : RaftNode Id Addr Cmd) {req : AppendRequest Id Cmd}
    (h : x.state = .leader → req.term ≠ x.currentTerm) :
    x.Yields (x.handleAppendEntries req).1 := by
  cases Nat.lt_or_ge req.term x.currentTerm with
  | inl hT =>
    rw [handleAppendEntries_old x hT]
    exact .of_state id
  | inr hT =>
    obtain ⟨log, commit, ok, -, he⟩ := handleAppendEntries_cases x hT
    rw [he]
    exact fun hx _ => lt_of_le_of_ne hT (h hx).symm

omit [DecidableEq Id] in
theorem yields_handleAppendEntriesResponse (x : RaftNode Id Addr Cmd) (peer : Addr)
    (resp : AppendResponse) (sent next : Nat) :
    x.Yields (x.handleAppendEntriesResponse peer resp sent next) := by
  rcases handleAppendEntriesResponse_cases x peer resp sent next with
    ⟨hT, he⟩ | he | ⟨-, -, -, he⟩ | ⟨-, -, -, he⟩ <;> rw [he]
  · exact fun _ _ => hT
  · exact .of_state id
  · refine .of_state fun hx => ?_
    cases advanceCommitIndex_cases (x.recordMatch peer (next - 1 + sent)) with
    | inl he => rwa [he]
    | inr hi =>
      obtain ⟨i, -, he⟩ := hi
      rwa [he]
  · exact .of_state id

omit [DecidableEq Id] [DecidableEq Addr] in
theorem handleAppendEntries_own_term (x : RaftNode Id Addr Cmd) {req : AppendRequest Id Cmd}
    (h : req.term = x.currentTerm) : (x.handleAppendEntries req).1.state = .follower ∧
      (x.handleAppendEntries req).1.currentTerm = x.currentTerm := by
  obtain ⟨log, commit, ok, -, he⟩ := handleAppendEntries_cases x h.ge
  rw [he]
  exact ⟨rfl, h⟩

theorem deposedByHigherTerm_of_noOwnTermAppend (hs : (raft W Cmd).step s a = some t)
    (hg : NoOwnTermAppend W s a) : DeposedByHigherTerm s a t := by
  have hsame {m : Id} {y : RaftNode Id Addr Cmd} {net : List (Rpc Id Addr Cmd)}
      {evs : List (Event Id Cmd)} (hy : (s.nodes m).Yields y) :
      DeposedByHigherTerm s a (s.move m y net evs) := by
    intro n
    by_cases hn : n = m
    · subst hn
      rwa [move_self]
    · rw [move_of_ne _ _ _ _ hn]
      exact fun hx hy => absurd hx hy
  cases step_cases hs with
  | election n hx => exact hsame fun hl _ => absurd hl hx
  | voteRequest k src peer req dst hk hd => exact hsame (yields_handleVoteRequest _ _)
  | voteResponse k src peer req resp hk => exact hsame (yields_handleVoteResponse _ _)
  | appendRequest k src origin peer req nextIdx dst hk hd =>
    refine hsame (yields_handleAppendEntries _ (hg (dst, req) ?_))
    simp [appendRequestAt, hk, hd]
  | appendResponse k src origin peer req nextIdx resp hk ha =>
    exact hsame (yields_handleAppendEntriesResponse _ _ _ _ _)
  | propose n command =>
    refine hsame (.of_state fun hx => ?_)
    rwa [propose_of_leader _ hx]
  | finish n k c hk =>
    refine hsame (.of_state fun hx => ?_)
    cases finishPropose_cases (s.nodes n) c k with
    | inl he => rwa [he.2]
    | inr he => rwa [he.2]
  | _ => exact hsame (.of_state id)

theorem deposedByHigherTerm_iff (hs : (raft W Cmd).step s a = some t) :
    DeposedByHigherTerm s a t ↔ NoOwnTermAppend W s a := by
  refine ⟨fun h d hd hl hT => ?_, deposedByHigherTerm_of_noOwnTermAppend hs⟩
  cases step_cases hs with
  | appendRequest k src origin peer req nextIdx dst hk hr =>
    have hd : d = (dst, req) := by simpa [appendRequestAt, hk, hr, eq_comm] using hd
    subst hd
    obtain ⟨hf, hsame⟩ := handleAppendEntries_own_term (s.nodes dst) hT
    have hlt := h dst hl
    rw [move_self, hf, hsame] at hlt
    exact lt_irrefl _ (hlt (by decide))
  | voteRequest k src peer req dst hk hr => simp [appendRequestAt, hk] at hd
  | voteResponse k src peer req resp hk => simp [appendRequestAt, hk] at hd
  | appendResponse k src origin peer req nextIdx resp hk ha => simp [appendRequestAt, hk] at hd
  | dropResponse k src origin peer req nextIdx resp hk => simp [appendRequestAt, hk] at hd
  | _ => cases hd

end Deposed

/-- In a run of a cluster started so, leaders are deposed by higher terms only, exactly if
none of them is handed an `append_entries` of its own term. -/
theorem deployed_leaders_yield {N : Nat} {Cmd : Type} (D : Deployment N)
    (as : List (Action (Fin N) Cmd)) :
    (raft D.wiring Cmd).Along DeposedByHigherTerm (raft D.wiring Cmd).init as ↔
      (raft D.wiring Cmd).Along (fun s a _ => NoOwnTermAppend D.wiring s a)
        (raft D.wiring Cmd).init as :=
  System.along_congr (fun _ _ _ hs => deposedByHigherTerm_iff hs) _ _

/-- What a leader sends to its own address in its own term deposes it on delivery. -/
theorem own_append_deposes {N : Nat} {Cmd : Type} (D : Deployment N)
    {s t : Cluster (Fin N) String Cmd} {n : Fin N} {k : Nat} {origin : Origin}
    {req : AppendRequest (Fin N) Cmd} {nextIdx : Nat}
    (hk : s.net[k]? = some (.append n origin (D.address n) req nextIdx none))
    (hT : req.term = (s.nodes n).currentTerm)
    (hs : (raft D.wiring Cmd).step s (.deliver k) = some t) :
    (t.nodes n).state = .follower ∧ (t.nodes n).currentTerm = (s.nodes n).currentTerm := by
  have ht : t.nodes n = ((s.nodes n).handleAppendEntries req).1 := by
    simp only [raft, Cluster.step, Cluster.deliver, hk, Option.bind_some, D.route_address,
      Option.map_some, Option.some.injEq] at hs
    rw [← hs, move_self]
  rw [ht]
  exact handleAppendEntries_own_term (s.nodes n) hT

/-- The cluster of `docker-compose.yml`. -/
def compose : Deployment 3 where
  host := !["172.20.0.11", "172.20.0.12", "172.20.0.13"]
  port := ![8001, 8002, 8003]
  distinct := by decide +kernel

/-- Node 0 wins term 1 with all three votes and replicates to its own address. -/
def ownReplication : List (Action (Fin 3) Nat) :=
  [.electionTimeout 0, .deliver 1, .deliver 1, .deliver 1, .deliver 1,
   .runTask 0 0, .runTask 0 0, .deliver 1]

theorem not_deposedByHigherTerm_ownReplication :
    ¬ (raft compose.wiring Nat).Along DeposedByHigherTerm (raft compose.wiring Nat).init
      ownReplication := by
  decide +kernel

end DistSync.Raft
