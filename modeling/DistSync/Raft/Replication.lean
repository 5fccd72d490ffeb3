import DistSync.Raft.Transition
import DistSync.Raft.Handlers

/-! Who sends `append_entries`. The tasks of a heartbeat loop die with it when
the leader steps down; the one `propose` schedules does not. -/
namespace DistSync.Raft
open TermLog RaftNode
variable {Id Addr Cmd : Type} [DecidableEq Addr]
variable {W : Wiring Id Addr} {s t : Cluster Id Addr Cmd}

/-- A replication task scheduled by `propose` starts only while its node is leader. -/
def ProposalsReplicateAsLeader (s : Cluster Id Addr Cmd) (a : Action Id Cmd) : Prop :=
  ∀ d ∈ sendAt s a, d.2 = .propose → (s.nodes d.1).state = .leader

instance (s : Cluster Id Addr Cmd) (a : Action Id Cmd) :
    Decidable (ProposalsReplicateAsLeader s a) :=
  inferInstanceAs (Decidable (∀ d ∈ sendAt s a, _))

def OnlyLeadersSend (h : List (Event Id Cmd)) : Prop :=
  ∀ n state T req, .sentAppend n state T req ∈ h → state = .leader ∧ req.term = T

def Event.sentByLeader : Event Id Cmd → Bool
  | .sentAppend _ state T req => state = .leader ∧ req.term = T
  | _ => true

theorem onlyLeadersSend_iff {h : List (Event Id Cmd)} :
    OnlyLeadersSend h ↔ ∀ e ∈ h, e.sentByLeader = true := by
  constructor
  · intro hs e he
    cases e with
    | sentAppend n state T req => exact decide_eq_true (hs n state T req he)
    | _ => rfl
  · exact fun hs n state T req hm => of_decide_eq_true (hs _ hm)

instance (h : List (Event Id Cmd)) : Decidable (OnlyLeadersSend h) :=
  decidable_of_iff' _ onlyLeadersSend_iff

/-- Tasks of the running heartbeat loop belong to a leader; loop numbers are not reused. -/
structure Beating (x : RaftNode Id Addr Cmd) : Prop where
  loop_lt : ∀ loop, x.heartbeatTask = some loop → loop < x.fresh
  task_lt : ∀ loop p, .replicateToPeer (.heartbeat loop) p ∈ x.tasks → loop < x.fresh
  leads : ∀ loop p, .replicateToPeer (.heartbeat loop) p ∈ x.tasks →
    x.heartbeatTask = some loop → x.state = .leader

omit [DecidableEq Addr] in
theorem Beating.of_frame {x y : RaftNode Id Addr Cmd} (h : Beating x)
    (hb : y.heartbeatTask = x.heartbeatTask ∨ y.heartbeatTask = none)
    (ht : ∀ loop p, .replicateToPeer (.heartbeat loop) p ∈ y.tasks →
      .replicateToPeer (.heartbeat loop) p ∈ x.tasks)
    (hf : x.fresh ≤ y.fresh)
    (hs : x.state = .leader → y.heartbeatTask = none ∨ y.state = .leader) : Beating y where
  loop_lt loop hl := by
    cases hb with
    | inl hb => exact (h.loop_lt loop (hb ▸ hl)).trans_le hf
    | inr hb =>
      rw [hb] at hl
      cases hl
  task_lt loop p hp := (h.task_lt loop p (ht loop p hp)).trans_le hf
  leads loop p hp hl := by
    cases hb with
    | inl hb =>
      cases hs (h.leads loop p (ht loop p hp) (hb ▸ hl)) with
      | inl hn =>
        rw [hn] at hl
        cases hl
      | inr hy => exact hy
    | inr hb =>
      rw [hb] at hl
      cases hl

theorem Beating.becomeLeader {x : RaftNode Id Addr Cmd} (h : Beating x) : Beating x.becomeLeader :=
  h.of_frame (.inl rfl) (fun loop p hp => by simpa [becomeLeader_eq] using hp) (Nat.le_succ _)
    fun _ => .inr rfl

theorem Beating.startElection {x : RaftNode Id Addr Cmd} (h : Beating x) (hx : x.state ≠ .leader) :
    Beating x.startElection.1 := by
  have hc : Beating x.campaign :=
    h.of_frame (.inl rfl) (fun _ _ hp => hp) le_rfl fun hl => absurd hl hx
  by_cases hp : x.peers = []
  · rw [startElection_alone x hp]
    exact hc.becomeLeader
  · rw [startElection_of_peers x hp]
    exact hc

variable [DecidableEq Id]

omit [DecidableEq Addr] in
theorem Beating.handleVoteRequest {x : RaftNode Id Addr Cmd} (h : Beating x)
    (req : VoteRequest Id) : Beating (x.handleVoteRequest req).1 := by
  obtain ⟨T, vote, state, hb, ⟨rfl, rfl, rfl⟩ | ⟨-, -, rfl, rfl⟩, he⟩ :=
    handleVoteRequest_frame x req <;> rw [he]
  · exact h.of_frame (.inl rfl) (fun _ _ hp => hp) le_rfl .inr
  · exact h.of_frame (.inr rfl) (fun _ _ hp => hp) le_rfl fun _ => .inl rfl

omit [DecidableEq Id] [DecidableEq Addr] in
theorem Beating.becomeFollower {x : RaftNode Id Addr Cmd} (h : Beating x) (T : Nat) :
    Beating (x.becomeFollower T) :=
  h.of_frame (.inr rfl) (fun _ _ hp => hp) le_rfl fun _ => .inl rfl

theorem Beating.handleVoteResponse {x : RaftNode Id Addr Cmd} (h : Beating x)
    (resp : VoteResponse Id) : Beating (x.handleVoteResponse resp) := by
  have hr : Beating (x.recordVote resp.voterId) :=
    h.of_frame (.inl rfl) (fun _ _ hp => hp) le_rfl .inr
  rcases handleVoteResponse_cases x resp with he | ⟨-, -, he⟩ | ⟨-, -, -, he | ⟨-, he⟩⟩ <;> rw [he]
  · exact h
  · exact h.becomeFollower _
  · exact hr
  · exact hr.becomeLeader

omit [DecidableEq Id] [DecidableEq Addr] in
theorem Beating.handleAppendEntries {x : RaftNode Id Addr Cmd} (h : Beating x)
    (req : AppendRequest Id Cmd) : Beating (x.handleAppendEntries req).1 := by
  cases Nat.lt_or_ge req.term x.currentTerm with
  | inl hT => rwa [handleAppendEntries_old x hT]
  | inr hT =>
    obtain ⟨log, commit, ok, -, he⟩ := handleAppendEntries_cases x hT
    rw [he]
    exact h.of_frame (.inr rfl) (fun _ _ hp => hp) le_rfl fun _ => .inl rfl

omit [DecidableEq Id] in
theorem Beating.handleAppendEntriesResponse {x : RaftNode Id Addr Cmd} (h : Beating x)
    (peer : Addr) (resp : AppendResponse) (sent next : Nat) :
    Beating (x.handleAppendEntriesResponse peer resp sent next) := by
  rcases handleAppendEntriesResponse_cases x peer resp sent next with
    ⟨-, he⟩ | he | ⟨-, -, -, he⟩ | ⟨-, -, -, he⟩ <;> rw [he]
  · exact h.becomeFollower _
  · exact h
  · rcases advanceCommitIndex_cases (x.recordMatch peer (next - 1 + sent)) with
      he | ⟨i, -, he⟩ <;> rw [he] <;>
      exact h.of_frame (.inl rfl) (fun _ _ hp => hp) le_rfl .inr
  · exact h.of_frame (.inl rfl) (fun _ _ hp => hp) le_rfl .inr

omit [DecidableEq Id] [DecidableEq Addr] in
theorem Beating.propose {x : RaftNode Id Addr Cmd} (h : Beating x) (command : Command Id Cmd)
    (caller : Caller) : Beating (x.propose command caller) := by
  by_cases hx : x.state = .leader
  · rw [propose_of_leader x hx]
    exact h.of_frame (.inl rfl) (fun loop p hp => by simpa using hp) (Nat.le_succ _) .inr
  · rwa [propose_of_not_leader x hx]

omit [DecidableEq Addr] [DecidableEq Id] in
theorem Beating.startHeartbeat {x : RaftNode Id Addr Cmd} (h : Beating x) :
    Beating x.startHeartbeat where
  loop_lt loop hl := by
    cases hl
    exact Nat.lt_succ_self _
  task_lt loop p hp := (h.task_lt loop p hp).trans (Nat.lt_succ_self _)
  leads loop p hp hl := by
    cases hl
    exact absurd (h.task_lt _ p hp) (lt_irrefl _)

omit [DecidableEq Addr] [DecidableEq Id] in
theorem Beating.finishPropose {x : RaftNode Id Addr Cmd} (h : Beating x)
    (c : ProposeCall Id Cmd) (k : Nat) : Beating (x.finishPropose c k) := by
  have hd : Beating (x.dropCall c k) := h.of_frame (.inl rfl) (fun _ _ hp => hp) le_rfl .inr
  rcases finishPropose_cases x c k with ⟨-, he⟩ | ⟨-, he⟩ <;> rw [he]
  · exact hd.startHeartbeat
  · exact hd

omit [DecidableEq Addr] [DecidableEq Id] in
theorem Beating.replicateToAll {x : RaftNode Id Addr Cmd} (h : Beating x) {loop : Nat}
    (hl : x.heartbeatTask = some loop) (hx : x.state = .leader) :
    Beating { x with tasks := x.tasks ++ x.replicateToAll (.heartbeat loop) } where
  loop_lt := h.loop_lt
  task_lt loop' p hp := by
    cases List.mem_append.mp hp with
    | inl hp => exact h.task_lt loop' p hp
    | inr hp =>
      obtain ⟨q, -, hq⟩ := List.mem_map.mp hp
      cases hq
      exact h.loop_lt loop hl
  leads _ _ _ _ := hx

theorem beating_step (h : ∀ m, Beating (s.nodes m)) {a : Action Id Cmd}
    (hs : (raft W Cmd).step s a = some t) (m : Id) : Beating (t.nodes m) := by
  cases step_cases hs with
  | election n hx => exact move_nodes h ((h n).startElection hx) m
  | heartbeat n loop hl hx => exact move_nodes h ((h n).replicateToAll hl hx) m
  | heartbeatEnds n hx =>
    refine move_nodes h ?_ m
    exact (h n).of_frame (.inr rfl) (fun _ _ hp => hp) le_rfl fun _ => .inl rfl
  | replicateAll n k hk =>
    refine move_nodes h ?_ m
    refine (h n).of_frame (.inl rfl) (fun loop p hp => ?_) le_rfl .inr
    cases List.mem_append.mp hp with
    | inl hp => exact List.mem_of_mem_eraseIdx hp
    | inr hp =>
      obtain ⟨q, -, hq⟩ := List.mem_map.mp hp
      cases hq
  | voteRequest k src peer req dst hk hd =>
    exact move_nodes h ((h dst).handleVoteRequest req) m
  | voteResponse k src peer req resp hk =>
    exact move_nodes h ((h src).handleVoteResponse resp) m
  | appendRequest k src origin peer req nextIdx dst hk hd =>
    exact move_nodes h ((h dst).handleAppendEntries req) m
  | appendResponse k src origin peer req nextIdx resp hk ha =>
    exact move_nodes h ((h src).handleAppendEntriesResponse ..) m
  | dropResponse k src origin peer req nextIdx resp hk => exact move_nodes h (h src) m
  | propose n command => exact move_nodes h ((h n).propose ..) m
  | finish n k c hk => exact move_nodes h ((h n).finishPropose ..) m
  | apply n hx =>
    refine move_nodes h ?_ m
    exact (h n).of_frame (.inl rfl) (fun _ _ hp => hp) le_rfl .inr
  | _ =>
    refine move_nodes h ?_ m
    exact (h _).of_frame (.inl rfl) (fun _ _ hp => List.mem_of_mem_eraseIdx hp) le_rfl .inr

theorem beating_reach {guard : Cluster Id Addr Cmd → Action Id Cmd → Prop}
    (h : (raft W Cmd).Reach guard s) (n : Id) : Beating (s.nodes n) := by
  refine h.invariant (I := fun s => ∀ n, Beating (s.nodes n)) (fun n => ?_)
    (fun _ _ _ _ hi _ hs => beating_step hi hs) n
  constructor <;> intros <;> contradiction

theorem sentAppend_step {a : Action Id Cmd} (hs : (raft W Cmd).step s a = some t) {n : Id}
    {state : NodeState} {T : Nat} {req : AppendRequest Id Cmd}
    (hm : .sentAppend n state T req ∈ t.history) : .sentAppend n state T req ∈ s.history ∨
      ∃ k origin peer, a = .runTask n k ∧
        (s.nodes n).tasks[k]? = some (.replicateToPeer origin peer) ∧
        origin.alive (s.nodes n) = true ∧ state = (s.nodes n).state ∧
        T = (s.nodes n).currentTerm ∧ req = (s.nodes n).appendRequest peer := by
  cases step_cases hs with
  | send n k origin peer hk hal =>
    rcases mem_move_history.mp hm with ho | he | h
    · cases ofLeader_of_mem_observe ho
    · cases List.mem_singleton.mp he
      exact .inr ⟨k, origin, peer, rfl, hk, hal, rfl, rfl, rfl⟩
    · exact .inl h
  | _ =>
    rcases mem_move_history.mp hm with ho | he | h
    · cases ofLeader_of_mem_observe ho
    · first
      | cases he; done
      | split at he <;> simp at he
      | simp at he
    · exact .inl h

theorem OnlyLeadersSend.step (h : OnlyLeadersSend s.history) (hb : ∀ n, Beating (s.nodes n))
    {a : Action Id Cmd} (ha : ProposalsReplicateAsLeader s a)
    (hs : (raft W Cmd).step s a = some t) : OnlyLeadersSend t.history := by
  intro n state T req hm
  cases sentAppend_step hs hm with
  | inl hm => exact h n state T req hm
  | inr hc =>
    obtain ⟨k, origin, peer, rfl, hk, hal, rfl, rfl, rfl⟩ := hc
    refine ⟨?_, rfl⟩
    cases origin with
    | propose => exact ha (n, .propose) (by simp [sendAt, hk]) rfl
    | heartbeat loop =>
      exact (hb n).leads loop peer (List.mem_of_getElem? hk) (of_decide_eq_true hal)

theorem OnlyLeadersSend.reach (h : (raft W Cmd).Reach ProposalsReplicateAsLeader s) :
    OnlyLeadersSend s.history :=
  h.invariant (I := fun s => OnlyLeadersSend s.history) (fun _ _ _ _ h => by cases h)
    fun _ _ _ hr hi ha hs => hi.step (beating_reach hr) ha hs

/-- Only leaders replicate, in runs where no task of `propose` outlives the leadership. -/
theorem onlyLeadersSend_of_guard (h : (raft W Cmd).Reach ProposalsReplicateAsLeader s) :
    OnlyLeadersSend s.history := .reach h

/-- Node 0 wins term 1 and its `no_op` is sent to node 1. -/
def firstReplication : List (Action (Fin 3) Nat) :=
  [.electionTimeout 0, .deliver 0, .deliver 0, .runTask 0 0, .runTask 0 0]

theorem onlyLeadersSend_firstReplication :
    ∃ s, (raft (mesh 3) Nat).runIf ProposalsReplicateAsLeader (raft (mesh 3) Nat).init
        firstReplication = some s ∧
      .sentAppend 0 .leader 1 ⟨1, 0, 0, 0, [⟨1, 1, .noOp 0, none, 0⟩], 0⟩ ∈ s.history ∧
      OnlyLeadersSend s.history := by
  have hrun : ((raft (mesh 3) Nat).runIf ProposalsReplicateAsLeader (raft (mesh 3) Nat).init
      firstReplication).any (fun s => .sentAppend 0 .leader 1
        ⟨1, 0, 0, 0, [⟨1, 1, .noOp 0, none, 0⟩], 0⟩ ∈ s.history) = true := by
    decide +kernel
  obtain ⟨s, hs, hl⟩ := (Option.any_eq_true ..).mp hrun
  exact ⟨s, hs, of_decide_eq_true hl,
    onlyLeadersSend_of_guard (System.Reach.init.runIf hs)⟩

/-- Node 1 deposes the leader 0 of term 1 before the replication of its `no_op`
starts; that task then sends as a follower of term 2. -/
def staleReplication : List (Action (Fin 3) Nat) :=
  [.electionTimeout 0, .deliver 0, .deliver 0, .electionTimeout 1, .deliver 1,
   .runTask 0 0, .runTask 0 0]

theorem not_onlyLeadersSend_staleReplication :
    ∃ s, (raft (mesh 3) Nat).run (raft (mesh 3) Nat).init staleReplication = some s ∧
      ¬ OnlyLeadersSend s.history := by
  have hrun : ((raft (mesh 3) Nat).run (raft (mesh 3) Nat).init staleReplication).any (fun s =>
      .sentAppend 0 .follower 2 ⟨2, 0, 0, 0, [⟨1, 1, .noOp 0, none, 0⟩], 0⟩ ∈ s.history) =
        true := by
    decide +kernel
  obtain ⟨s, hs, hl⟩ := (Option.any_eq_true ..).mp hrun
  exact ⟨s, hs, fun h => absurd (h _ _ _ _ (of_decide_eq_true hl)).1 (by decide)⟩

end DistSync.Raft
