import DistSync.Raft.Votes

/-! Entries that a leader could commit and leaves uncommitted. The commit index is recomputed
after success responses only, so what counts is how a new entry stands when it is appended. -/
namespace DistSync.Raft
open TermLog RaftNode
variable {Id Addr Cmd : Type} [DecidableEq Addr]
variable {W : Wiring Id Addr} {s t : Cluster Id Addr Cmd}

def RaftNode.Committable (x : RaftNode Id Addr Cmd) (idx : Nat) : Prop :=
  x.commitIndex < idx ∧ idx ≤ x.log.length ∧
    x.log[idx - 1]?.map LogEntry.term = some x.currentTerm ∧ x.quorum ≤ x.replicas idx

instance (x : RaftNode Id Addr Cmd) (idx : Nat) : Decidable (x.Committable idx) :=
  inferInstanceAs (Decidable (_ ∧ _))

def RaftNode.CommitsAll (x : RaftNode Id Addr Cmd) : Prop :=
  x.state = .leader → ∀ idx, ¬ x.Committable idx

/-- No node without peers is elected, and no leader appends where the match indices of a
quorum already lie beyond its log. A commit index beyond the log excuses both. -/
def AppendsUncounted (s : Cluster Id Addr Cmd) : Action Id Cmd → Prop
  | .electionTimeout n =>
    (s.nodes n).peers = [] → (s.nodes n).log.length < (s.nodes n).commitIndex
  | .propose n _ => (s.nodes n).state = .leader →
    (s.nodes n).quorum ≤ (s.nodes n).replicas ((s.nodes n).log.length + 1) →
    (s.nodes n).log.length < (s.nodes n).commitIndex
  | _ => True

section Node
variable {x y : RaftNode Id Addr Cmd}

theorem RaftNode.CommitsAll.of_not_leader (h : x.state ≠ .leader) : x.CommitsAll :=
  fun hx => absurd hx h

theorem RaftNode.CommitsAll.of_frame (h : x.CommitsAll) (hs : y.state = .leader → x.state = .leader)
    (hr : y.toRaftState = x.toRaftState) (hc : y.commitIndex = x.commitIndex)
    (hp : y.peers = x.peers) (hm : y.matchIndex = x.matchIndex) : y.CommitsAll := by
  intro hy idx hi
  have hquorum : y.quorum = x.quorum := by rw [quorum, quorum, hp]
  have hreplicas : y.replicas idx = x.replicas idx := by
    unfold replicas matchIndexOf
    rw [hp, hm]
  rw [Committable, hr, hc, hquorum, hreplicas] at hi
  exact h (hs hy) idx hi

theorem commitScan_finds {i idx : Nat} (hc : x.commitIndex < i) (hi : i ≤ idx)
    (ht : x.log[i - 1]?.map LogEntry.term = some x.currentTerm) (hq : x.quorum ≤ x.replicas i) :
    ∃ j, x.commitScan idx = some j ∧ i ≤ j := by
  induction idx with
  | zero => omega
  | succ idx ih =>
    have hbeyond : ¬ idx + 1 ≤ x.commitIndex := by omega
    rw [commitScan, if_neg hbeyond]
    cases Nat.lt_or_ge idx i with
    | inl hlast =>
      have hlast : i = idx + 1 := by omega
      subst hlast
      have ht : x.log[idx]?.map LogEntry.term = some x.currentTerm := ht
      rw [if_neg (not_not.mpr ht), if_pos hq]
      exact ⟨idx + 1, rfl, le_rfl⟩
    | inr hlow =>
      obtain ⟨j, hj, hij⟩ := ih hlow
      split
      · exact ⟨j, hj, hij⟩
      · split
        · exact ⟨idx + 1, rfl, by omega⟩
        · exact ⟨j, hj, hij⟩

theorem commitsAll_advanceCommitIndex (x : RaftNode Id Addr Cmd) :
    x.advanceCommitIndex.CommitsAll := by
  intro _ idx hi
  cases hscan : x.commitScan x.log.length with
  | none =>
    rw [advanceCommitIndex, hscan] at hi
    obtain ⟨j, hj, -⟩ := commitScan_finds hi.1 hi.2.1 hi.2.2.1 hi.2.2.2
    rw [hscan] at hj
    cases hj
  | some i =>
    rw [advanceCommitIndex, hscan] at hi
    -- the new commit index is where the scan stopped, so nothing above it counts
    have habove : i < idx := hi.1
    have hlen : idx ≤ x.log.length := hi.2.1
    have hfound : x.commitIndex < i := (commitScan_eq_some x hscan).1
    obtain ⟨j, hj, hij⟩ := commitScan_finds (hfound.trans habove) hlen hi.2.2.1 hi.2.2.2
    rw [hscan] at hj
    cases hj
    omega

theorem committable_appended {e : LogEntry Id Cmd} (hlog : y.log = x.log ++ [e])
    (he : e.term = y.currentTerm) (hc : y.commitIndex ≤ x.log.length)
    (hq : y.quorum ≤ y.replicas (x.log.length + 1)) : y.Committable (x.log.length + 1) :=
  ⟨by omega, by simp [hlog], by simp [hlog, he], hq⟩

theorem commitsAll_propose (h : x.CommitsAll) (command : Command Id Cmd) (caller : Caller) :
    (x.propose command caller).CommitsAll ↔ (x.state = .leader →
      x.quorum ≤ x.replicas (x.log.length + 1) → x.log.length < x.commitIndex) := by
  by_cases hx : x.state = .leader
  · rw [propose_of_leader x hx, imp_iff_right hx]
    constructor
    · intro hall hq
      exact not_le.mp fun hc => hall hx _ (committable_appended rfl rfl hc hq)
    · intro hguard _ idx hi
      obtain ⟨hc, hlen, ht, hq⟩ := hi
      rw [List.length_append, List.length_singleton] at hlen
      cases Nat.lt_or_ge x.log.length idx with
      | inl hlast =>
        have hidx : idx = x.log.length + 1 := by omega
        rw [hidx] at hc hq
        have hbeyond : x.log.length < x.commitIndex := hguard hq
        have hnew : x.commitIndex < x.log.length + 1 := hc
        omega
      | inr hold =>
        have hpos : 0 < idx := Nat.zero_lt_of_lt hc
        have hin : idx - 1 < x.log.length := by omega
        rw [List.getElem?_append_left hin] at ht
        exact h hx idx ⟨hc, hold, ht, hq⟩
  · rw [propose_of_not_leader x hx]
    exact ⟨fun _ hl => absurd hl hx, fun _ => h⟩

/-- With all match indices zero, only a leader without peers counts a quorum. -/
theorem commitsAll_becomeLeader (x : RaftNode Id Addr Cmd) :
    x.becomeLeader.CommitsAll ↔ (x.peers = [] → x.log.length < x.commitIndex) := by
  have hone {idx : Nat} (hi : 0 < idx) : x.becomeLeader.replicas idx = 1 := by
    have hnone : x.peers.countP (fun p => decide (x.becomeLeader.matchIndexOf p ≥ idx)) = 0 := by
      refine List.countP_eq_zero.mpr fun p hp => ?_
      have hzero : x.becomeLeader.matchIndexOf p = 0 := by
        simp [becomeLeader_eq, matchIndexOf, Dict.get?_ofKeys, hp]
      simpa [hzero] using hi.ne'
    exact congrArg (1 + ·) hnone
  have hquorum : x.becomeLeader.quorum = (x.peers.length + 1) / 2 + 1 := rfl
  constructor
  · intro hall hp
    refine not_le.mp fun hc => hall rfl _ (committable_appended rfl rfl hc ?_)
    rw [hone (Nat.succ_pos _), hquorum, hp, List.length_nil]
  · intro hguard _ idx hi
    obtain ⟨hc, hlen, -, hq⟩ := hi
    rw [hone (Nat.zero_lt_of_lt hc), hquorum] at hq
    have hp : x.peers = [] := List.length_eq_zero_iff.mp (by omega)
    have hbeyond : x.log.length < x.commitIndex := hguard hp
    have hnew : x.commitIndex < idx := hc
    rw [becomeLeader_log, List.length_append, List.length_singleton] at hlen
    omega

theorem commitsAll_startElection (x : RaftNode Id Addr Cmd) : x.startElection.1.CommitsAll ↔
    (x.peers = [] → x.log.length < x.commitIndex) := by
  by_cases hp : x.peers = []
  · rw [startElection_alone x hp]
    exact commitsAll_becomeLeader x.campaign
  · rw [startElection_of_peers x hp]
    refine iff_of_true (.of_not_leader (by simp [campaign])) fun hn => absurd hn hp

variable [DecidableEq Id]

theorem RaftNode.CommitsAll.handleVoteRequest (h : x.CommitsAll) (req : VoteRequest Id) :
    (x.handleVoteRequest req).1.CommitsAll := by
  obtain ⟨T, vote, state, hb, hT, he⟩ := handleVoteRequest_frame x req
  rw [he]
  cases hT with
  | inl hsame =>
    obtain ⟨rfl, rfl, -⟩ := hsame
    exact h
  | inr hnew =>
    obtain ⟨-, -, rfl, -⟩ := hnew
    exact .of_not_leader (by simp)

theorem RaftNode.CommitsAll.handleVoteResponse (h : x.CommitsAll) (hp : x.peers ≠ [])
    (resp : VoteResponse Id) : (x.handleVoteResponse resp).CommitsAll := by
  cases handleVoteResponse_cases x resp with
  | inl he =>
    rw [he]
    exact h
  | inr hcand =>
    cases hcand with
    | inl hlost =>
      rw [hlost.2.2]
      exact .of_not_leader (by simp [becomeFollower])
    | inr hvote =>
      obtain ⟨hx, -, -, hvote⟩ := hvote
      cases hvote with
      | inl he =>
        rw [he]
        exact h.of_frame id rfl rfl rfl rfl
      | inr hwon =>
        rw [hwon.2]
        exact (commitsAll_becomeLeader _).mpr fun hn => absurd hn hp

omit [DecidableEq Id] in
theorem RaftNode.CommitsAll.handleAppendEntries (h : x.CommitsAll) (req : AppendRequest Id Cmd) :
    (x.handleAppendEntries req).1.CommitsAll := by
  cases Nat.lt_or_ge req.term x.currentTerm with
  | inl hT =>
    rw [handleAppendEntries_old x hT]
    exact h
  | inr hT =>
    obtain ⟨log, commit, ok, -, he⟩ := handleAppendEntries_cases x hT
    rw [he]
    exact .of_not_leader (by simp [becomeFollower])

omit [DecidableEq Id] in
theorem RaftNode.CommitsAll.handleAppendEntriesResponse (h : x.CommitsAll) (peer : Addr)
    (resp : AppendResponse) (sent next : Nat) :
    (x.handleAppendEntriesResponse peer resp sent next).CommitsAll := by
  cases handleAppendEntriesResponse_cases x peer resp sent next with
  | inl hnewer =>
    rw [hnewer.2]
    exact .of_not_leader (by simp [becomeFollower])
  | inr hrest =>
    cases hrest with
    | inl he =>
      rw [he]
      exact h
    | inr hlead =>
      cases hlead with
      | inl hok =>
        rw [hok.2.2.2]
        exact commitsAll_advanceCommitIndex _
      | inr hfail =>
        rw [hfail.2.2.2]
        exact h.of_frame id rfl rfl rfl rfl

omit [DecidableEq Id] in
theorem RaftNode.CommitsAll.finishPropose (h : x.CommitsAll) (c : ProposeCall Id Cmd) (k : Nat) :
    (x.finishPropose c k).CommitsAll := by
  cases finishPropose_cases x c k with
  | inl he =>
    rw [he.2]
    exact h.of_frame id rfl rfl rfl rfl
  | inr he =>
    rw [he.2]
    exact h.of_frame id rfl rfl rfl rfl

end Node

variable [DecidableEq Id]

theorem peers_of_vote (h : (raft W Cmd).Reachable s) {src : Id} {peer : Addr}
    {req : VoteRequest Id} {reply : Option (VoteResponse Id)}
    (hm : .vote src peer req reply ∈ s.net) : (s.nodes src).peers ≠ [] := by
  have hpeers : ∀ n, (s.nodes n).peers = W.peers n := (VoteInv.reach h).peers
  rw [hpeers]
  refine h.invariant (I := fun s => ∀ src peer req reply,
    .vote src peer req reply ∈ s.net → W.peers src ≠ []) (by nofun) ?_ _ _ _ _ hm
  intro s a t hr hI _ hs src peer req reply hm
  cases step_cases hs with
  | election n hx =>
    cases List.mem_append.mp hm with
    | inl hm => exact hI _ _ _ _ hm
    | inr hm =>
      obtain ⟨r, hsent, heq⟩ := List.mem_map.mp hm
      cases heq
      rw [← (VoteInv.reach hr).peers]
      intro hp
      rw [startElection_alone _ hp] at hsent
      cases hsent
  | voteRequest k src' peer' req' dst hk hd =>
    cases List.mem_or_eq_of_mem_set hm with
    | inl hm => exact hI _ _ _ _ hm
    | inr heq =>
      cases heq
      exact hI _ _ _ _ (List.mem_of_getElem? hk)
  | send n k origin peer' hk ha => exact hI _ _ _ _ (by simpa using hm)
  | appendRequest k src' origin peer' req' nextIdx dst hk hd =>
    exact hI _ _ _ _ ((List.mem_or_eq_of_mem_set hm).resolve_right (by simp))
  | voteResponse k src' peer' req' resp hk => exact hI _ _ _ _ (List.mem_of_mem_eraseIdx hm)
  | appendResponse k src' origin peer' req' nextIdx resp hk ha =>
    exact hI _ _ _ _ (List.mem_of_mem_eraseIdx hm)
  | dropResponse k src' origin peer' req' nextIdx resp hk =>
    exact hI _ _ _ _ (List.mem_of_mem_eraseIdx hm)
  | _ => exact hI _ _ _ _ hm

theorem commitsAll_step {a : Action Id Cmd} (hr : (raft W Cmd).Reachable s)
    (h : ∀ n, (s.nodes n).CommitsAll) (hs : (raft W Cmd).step s a = some t) :
    (∀ n, (t.nodes n).CommitsAll) ↔ AppendsUncounted s a := by
  have hmove {n : Id} {y : RaftNode Id Addr Cmd} {net : List (Rpc Id Addr Cmd)}
      {evs : List (Event Id Cmd)} :
      (∀ m, ((s.move n y net evs).nodes m).CommitsAll) ↔ y.CommitsAll :=
    ⟨fun hall => move_self s n y net evs ▸ hall n, fun hy => move_nodes h hy⟩
  have hkeep {n : Id} {y : RaftNode Id Addr Cmd} {net : List (Rpc Id Addr Cmd)}
      {evs : List (Event Id Cmd)} (hy : y.CommitsAll) :
      (∀ m, ((s.move n y net evs).nodes m).CommitsAll) ↔ True :=
    iff_true_intro (hmove.mpr hy)
  cases step_cases hs with
  | election n hx => exact hmove.trans (commitsAll_startElection _)
  | voteRequest k src peer req dst hk hd => exact hkeep ((h dst).handleVoteRequest req)
  | voteResponse k src peer req resp hk =>
    exact hkeep ((h src).handleVoteResponse (peers_of_vote hr (List.mem_of_getElem? hk)) resp)
  | appendRequest k src origin peer req nextIdx dst hk hd =>
    exact hkeep ((h dst).handleAppendEntries req)
  | appendResponse k src origin peer req nextIdx resp hk ha =>
    exact hkeep ((h src).handleAppendEntriesResponse peer resp req.entries.length nextIdx)
  | dropResponse k src origin peer req nextIdx resp hk => exact hkeep (h src)
  | propose n command => exact hmove.trans (commitsAll_propose (h n) _ _)
  | finish n k c hk => exact hkeep ((h n).finishPropose c k)
  | heartbeat n loop hl hx => exact hkeep ((h n).of_frame id rfl rfl rfl rfl)
  | heartbeatEnds n hx => exact hkeep ((h n).of_frame id rfl rfl rfl rfl)
  | replicateAll n k hk => exact hkeep ((h n).of_frame id rfl rfl rfl rfl)
  | send n k origin peer hk ha => exact hkeep ((h n).of_frame id rfl rfl rfl rfl)
  | skip n k => exact hkeep ((h n).of_frame id rfl rfl rfl rfl)
  | apply n hx => exact hkeep ((h n).of_frame id rfl rfl rfl rfl)

/-- In every run, leaders have committed all they can after every step exactly if each entry
was appended before a quorum could count it. -/
theorem commitsAll_iff (W : Wiring Id Addr) (as : List (Action Id Cmd)) :
    (raft W Cmd).Along (fun _ _ t => ∀ n, (t.nodes n).CommitsAll) (raft W Cmd).init as ↔
      (raft W Cmd).Along (fun s a _ => AppendsUncounted s a) (raft W Cmd).init as :=
  System.along_invariant_iff (fun _ _ _ hr h hs => commitsAll_step hr h hs) .init
    (fun _ => .of_not_leader (by simp [raft])) as

theorem not_commitsAll_alone : ∃ s, (raft (mesh 1) Nat).run (raft (mesh 1) Nat).init
    [.electionTimeout (Fin.last 0)] = some s ∧ ¬ (s.nodes (Fin.last 0)).CommitsAll := by
  have hrun : ((raft (mesh 1) Nat).run (raft (mesh 1) Nat).init
      [.electionTimeout (Fin.last 0)]).any (fun s => (s.nodes (Fin.last 0)).state = .leader ∧
        (s.nodes (Fin.last 0)).Committable 1) = true := by
    decide +kernel
  obtain ⟨s, hs, hh⟩ := (Option.any_eq_true ..).mp hrun
  obtain ⟨hlead, hnoop⟩ := of_decide_eq_true hh
  exact ⟨s, hs, fun h => h hlead 1 hnoop⟩

end DistSync.Raft
