import DistSync.Raft.Node

/-! One lemma for each handler saying what it does to the node; callers use
these and do not unfold the handlers. -/
namespace DistSync.Raft.RaftNode
open TermLog
variable {Id Addr Cmd : Type}
variable (x : RaftNode Id Addr Cmd)

def newEntry (command : Command Id Cmd) : LogEntry Id Cmd :=
  { term := x.currentTerm, index := x.log.length + 1, command := command }

theorem propose_of_leader {command : Command Id Cmd} {caller : Caller} (h : x.state = .leader) :
    x.propose command caller =
      { x with
        log := x.log ++ [x.newEntry command]
        pendingCommits := x.pendingCommits.set (x.log.length + 1) x.fresh
        calls := x.calls ++ [{ future := x.fresh, entry := x.newEntry command, caller := caller }]
        tasks := x.tasks ++ [.replicateToAll]
        fresh := x.fresh + 1 } := by
  simp [propose, newEntry, h]

theorem propose_of_not_leader {command : Command Id Cmd} {caller : Caller}
    (h : x.state ≠ .leader) : x.propose command caller = x := by
  simp [propose, h]

variable [DecidableEq Addr]

theorem becomeLeader_eq : x.becomeLeader =
    { x with
      state := .leader
      currentLeader := some x.nodeId
      nextIndex := .ofKeys x.peers (x.log.length + 1)
      matchIndex := .ofKeys x.peers 0
      log := x.log ++ [x.newEntry (.noOp x.nodeId)]
      pendingCommits := x.pendingCommits.set (x.log.length + 1) x.fresh
      calls := x.calls ++
        [{ future := x.fresh, entry := x.newEntry (.noOp x.nodeId), caller := .becomeLeader }]
      tasks := x.tasks ++ [.replicateToAll]
      fresh := x.fresh + 1 } := rfl

@[simp] theorem becomeLeader_state : x.becomeLeader.state = .leader := rfl

@[simp] theorem becomeLeader_currentTerm : x.becomeLeader.currentTerm = x.currentTerm := rfl

@[simp] theorem becomeLeader_log :
    x.becomeLeader.log = x.log ++ [x.newEntry (.noOp x.nodeId)] := rfl

/-- The candidate that `_start_election` makes of `x`. -/
def campaign : RaftNode Id Addr Cmd :=
  { x with
    currentTerm := x.currentTerm + 1
    state := .candidate
    votedFor := some x.nodeId
    votesReceived := {x.nodeId}
    currentLeader := none }

theorem startElection_of_peers (h : x.peers ≠ []) :
    x.startElection = (x.campaign, x.peers.map fun p => (p, x.campaign.voteRequest)) := by
  simp only [startElection, if_neg h]
  rfl

theorem startElection_alone (h : x.peers = []) :
    x.startElection = (x.campaign.becomeLeader, []) := by
  simp only [startElection, if_pos h]
  rfl

/-- `l` is at least as up to date as `l'`: what `log_ok` decides. -/
def UpToDate (l l' : List (LogEntry Id Cmd)) : Prop :=
  lastTerm LogEntry.term l' < lastTerm LogEntry.term l ∨
    lastTerm LogEntry.term l' = lastTerm LogEntry.term l ∧ l'.length ≤ l.length

omit [DecidableEq Addr] in
theorem logOk_voteRequest {y : RaftNode Id Addr Cmd} :
    x.logOk y.voteRequest ↔ UpToDate y.log x.log := by
  unfold logOk voteRequest UpToDate
  dsimp only
  omega

/-- The vote is given: to a request of at least the node's term, by a node whose
vote of that term is free or already the candidate's, for an up-to-date log. -/
def Grants (req : VoteRequest Id) : Prop :=
  x.logOk req ∧ (x.currentTerm < req.term ∨
    x.currentTerm = req.term ∧ (x.votedFor = none ∨ x.votedFor = some req.candidateId))

variable [DecidableEq Id]

omit [DecidableEq Addr] in
theorem handleVoteRequest_eq (req : VoteRequest Id) :
    x.handleVoteRequest req =
      if x.currentTerm < req.term then
        if x.logOk req then
          ({ x.becomeFollower req.term with votedFor := some req.candidateId },
            ⟨req.term, true, x.nodeId⟩)
        else (x.becomeFollower req.term, ⟨req.term, false, x.nodeId⟩)
      else if x.currentTerm = req.term ∧
          (x.votedFor = none ∨ x.votedFor = some req.candidateId) ∧ x.logOk req then
        ({ x with votedFor := some req.candidateId }, ⟨x.currentTerm, true, x.nodeId⟩)
      else (x, ⟨x.currentTerm, false, x.nodeId⟩) := by
  unfold handleVoteRequest
  by_cases h : x.currentTerm < req.term
  · have hl : (x.becomeFollower req.term).logOk req = x.logOk req := rfl
    simp only [gt_iff_lt, h, if_true, ge_iff_le, hl]
    simp [becomeFollower]
  · have ht : x.currentTerm ≤ req.term ↔ x.currentTerm = req.term := by omega
    simp [h, ht]

omit [DecidableEq Addr] in
theorem handleVoteRequest_granted (req : VoteRequest Id) :
    (x.handleVoteRequest req).2.voteGranted = true ↔ x.Grants req := by
  rw [handleVoteRequest_eq, Grants]
  by_cases h : x.currentTerm < req.term
  · by_cases hl : x.logOk req <;> simp [h, hl]
  · by_cases hg : x.currentTerm = req.term ∧
      (x.votedFor = none ∨ x.votedFor = some req.candidateId) ∧ x.logOk req
    · simp [hg]
    · simp only [h, if_false, if_neg hg]
      simp only [Bool.false_eq_true, false_or, false_iff]
      intro hx
      obtain ⟨hl, ht, hv⟩ := hx
      exact hg ⟨ht, hv, hl⟩

omit [DecidableEq Addr] in
theorem handleVoteRequest_of_grants {req : VoteRequest Id} (h : x.Grants req) :
    (x.handleVoteRequest req).1.currentTerm = req.term ∧
      (x.handleVoteRequest req).1.votedFor = some req.candidateId ∧
      (x.handleVoteRequest req).2 = ⟨req.term, true, x.nodeId⟩ := by
  obtain ⟨hl, ht | ⟨ht, hv⟩⟩ := h
  · simp [handleVoteRequest_eq, becomeFollower, ht, hl]
  · simp [handleVoteRequest_eq, ht, hl, hv]

omit [DecidableEq Addr] in
theorem handleVoteRequest_of_not_grants {req : VoteRequest Id} (h : ¬ x.Grants req) :
    (x.handleVoteRequest req).1 =
      if x.currentTerm < req.term then x.becomeFollower req.term else x := by
  rw [handleVoteRequest_eq]
  by_cases ht : x.currentTerm < req.term
  · have hl : ¬ x.logOk req := fun hl => h ⟨hl, .inl ht⟩
    simp [ht, hl]
  · have hg : ¬ (x.currentTerm = req.term ∧
        (x.votedFor = none ∨ x.votedFor = some req.candidateId) ∧ x.logOk req) :=
      fun ⟨h1, h2, h3⟩ => h ⟨h3, .inr ⟨h1, h2⟩⟩
    simp [ht, hg]

omit [DecidableEq Addr] in
theorem handleVoteRequest_frame (req : VoteRequest Id) :
    ∃ T vote state hb, (T = x.currentTerm ∧ state = x.state ∧ hb = x.heartbeatTask ∨
        x.currentTerm < T ∧ T = req.term ∧ state = .follower ∧ hb = none) ∧
      (x.handleVoteRequest req).1 =
        { x with currentTerm := T, votedFor := vote, state := state, heartbeatTask := hb } := by
  rw [handleVoteRequest_eq]
  split
  · rename_i h
    split <;> exact ⟨_, _, _, _, .inr ⟨h, rfl, rfl, rfl⟩, rfl⟩
  · split <;> exact ⟨_, _, _, _, .inl ⟨rfl, rfl, rfl⟩, rfl⟩

def recordVote (voter : Id) : RaftNode Id Addr Cmd :=
  { x with votesReceived := insert voter x.votesReceived }

theorem handleVoteResponse_cases (resp : VoteResponse Id) :
    (x.handleVoteResponse resp = x) ∨
    (x.state = .candidate ∧ x.currentTerm < resp.term ∧
      x.handleVoteResponse resp = x.becomeFollower resp.term) ∨
    (x.state = .candidate ∧ resp.voteGranted = true ∧ resp.term = x.currentTerm ∧
      (x.handleVoteResponse resp = x.recordVote resp.voterId ∨
        x.quorum ≤ (insert resp.voterId x.votesReceived).card ∧
          x.handleVoteResponse resp = (x.recordVote resp.voterId).becomeLeader)) := by
  unfold handleVoteResponse
  split
  · exact .inl rfl
  · rename_i hc
    have hc : x.state = .candidate := not_not.mp hc
    split
    · rename_i ht
      exact .inr (.inl ⟨hc, ht, rfl⟩)
    · split
      · rename_i hg
        refine .inr (.inr ⟨hc, hg.1, hg.2, ?_⟩)
        dsimp only
        split
        · rename_i hq
          exact .inr ⟨hq, rfl⟩
        · exact .inl rfl
      · exact .inl rfl

/-- The three ways `handle_append_entries` treats a request of a term that is not old. -/
inductive AppendOutcome (req : AppendRequest Id Cmd) :
    List (LogEntry Id Cmd) → Nat → Bool → Prop
  | short (h : x.log.length < req.prevLogIndex) : AppendOutcome req x.log x.commitIndex false
  | mismatch (hp : 0 < req.prevLogIndex) (hl : req.prevLogIndex ≤ x.log.length)
      (ht : x.log[req.prevLogIndex - 1]?.map LogEntry.term ≠ some req.prevLogTerm) :
      AppendOutcome req (x.log.take (req.prevLogIndex - 1)) x.commitIndex false
  | success (hl : req.prevLogIndex ≤ x.log.length)
      (ht : 0 < req.prevLogIndex →
        x.log[req.prevLogIndex - 1]?.map LogEntry.term = some req.prevLogTerm) :
      AppendOutcome req (splice LogEntry.term x.log req.prevLogIndex req.entries)
        (if req.leaderCommit > x.commitIndex then
          min req.leaderCommit (splice LogEntry.term x.log req.prevLogIndex req.entries).length
        else x.commitIndex) true

omit [DecidableEq Addr] [DecidableEq Id] in
theorem handleAppendEntries_old {req : AppendRequest Id Cmd} (h : req.term < x.currentTerm) :
    x.handleAppendEntries req = (x, ⟨x.currentTerm, false⟩) := by
  simp [handleAppendEntries, h]

omit [DecidableEq Addr] [DecidableEq Id] in
theorem handleAppendEntries_cases {req : AppendRequest Id Cmd} (h : x.currentTerm ≤ req.term) :
    ∃ log commit ok, x.AppendOutcome req log commit ok ∧
      x.handleAppendEntries req =
        ({ x.becomeFollower req.term with
            currentLeader := some req.leaderId
            log := log
            commitIndex := commit }, ⟨req.term, ok⟩) := by
  have hlt : ¬ req.term < x.currentTerm := by omega
  simp only [handleAppendEntries, if_neg hlt]
  split
  · rename_i hs
    exact ⟨_, _, _, .short hs.2, rfl⟩
  · rename_i hs
    have hl : req.prevLogIndex ≤ x.log.length := by
      cases Nat.eq_zero_or_pos req.prevLogIndex with
      | inl h0 => omega
      | inr h0 => exact not_lt.mp fun hlt => hs ⟨h0, hlt⟩
    split
    · rename_i hm
      exact ⟨_, _, _, .mismatch hm.1 hl hm.2, rfl⟩
    · rename_i hm
      exact ⟨_, _, _, .success hl fun h0 => not_not.mp fun hne => hm ⟨h0, hne⟩, rfl⟩

omit [DecidableEq Id] in
theorem commitScan_eq_some {idx i : Nat} (h : x.commitScan idx = some i) :
    x.commitIndex < i ∧ i ≤ idx ∧ x.log[i - 1]?.map LogEntry.term = some x.currentTerm ∧
      x.quorum ≤ x.replicas i := by
  induction idx with
  | zero => cases h
  | succ idx ih =>
    simp only [commitScan] at h
    split at h
    · cases h
    · rename_i hc
      split at h
      · obtain ⟨h1, h2, h3⟩ := ih h
        exact ⟨h1, by omega, h3⟩
      · rename_i ht
        split at h
        · rename_i hq
          cases h
          exact ⟨by omega, le_rfl, not_not.mp ht, hq⟩
        · obtain ⟨h1, h2, h3⟩ := ih h
          exact ⟨h1, by omega, h3⟩

omit [DecidableEq Id] in
theorem advanceCommitIndex_cases :
    x.advanceCommitIndex = x ∨ ∃ i, x.commitScan x.log.length = some i ∧
      x.advanceCommitIndex = resolvePending { x with commitIndex := i } i := by
  unfold advanceCommitIndex
  split
  · rename_i i hi
    exact .inr ⟨i, hi, rfl⟩
  · exact .inl rfl

/-- The leader's bookkeeping for a success response, before the commit index advances. -/
def recordMatch (peer : Addr) (newMatch : Nat) : RaftNode Id Addr Cmd :=
  { x with
    matchIndex := x.matchIndex.set peer (max (x.matchIndexOf peer) newMatch)
    nextIndex := x.nextIndex.set peer (newMatch + 1) }

omit [DecidableEq Id] in
theorem handleAppendEntriesResponse_cases (peer : Addr) (resp : AppendResponse) (sent next : Nat) :
    (x.currentTerm < resp.term ∧
      x.handleAppendEntriesResponse peer resp sent next = x.becomeFollower resp.term) ∨
    (x.handleAppendEntriesResponse peer resp sent next = x) ∨
    (x.state = .leader ∧ resp.term ≤ x.currentTerm ∧ resp.success = true ∧
      x.handleAppendEntriesResponse peer resp sent next =
        (x.recordMatch peer (next - 1 + sent)).advanceCommitIndex) ∨
    (x.state = .leader ∧ resp.term ≤ x.currentTerm ∧ resp.success = false ∧
      x.handleAppendEntriesResponse peer resp sent next =
        { x with nextIndex := x.nextIndex.set peer (max 1 (x.nextIndexOf peer - 1)) }) := by
  unfold handleAppendEntriesResponse
  split
  · rename_i ht
    exact .inl ⟨ht, rfl⟩
  · rename_i ht
    have ht : resp.term ≤ x.currentTerm := not_lt.mp ht
    split
    · exact .inr (.inl rfl)
    · rename_i hx
      have hx : x.state = .leader := not_not.mp hx
      split
      · rename_i hs
        exact .inr (.inr (.inl ⟨hx, ht, hs, rfl⟩))
      · rename_i hs
        exact .inr (.inr (.inr ⟨hx, ht, by simpa using hs, rfl⟩))

/-- What the end of `propose` drops: the call, and after a timeout the pending future. -/
def dropCall (c : ProposeCall Id Cmd) (k : Nat) : RaftNode Id Addr Cmd :=
  { x with
    calls := x.calls.eraseIdx k
    pendingCommits :=
      if c.resolved then x.pendingCommits else x.pendingCommits.erase c.entry.index }

omit [DecidableEq Addr] [DecidableEq Id] in
theorem finishPropose_cases (c : ProposeCall Id Cmd) (k : Nat) :
    (c.caller = .becomeLeader ∧ x.finishPropose c k = (x.dropCall c k).startHeartbeat) ∨
    (c.caller = .client ∧ x.finishPropose c k = x.dropCall c k) := by
  unfold finishPropose dropCall
  cases c.caller <;> cases c.resolved <;> simp

section Frame

omit [DecidableEq Id] in
theorem startElection_volatile : x.startElection.1.toVolatileState = x.toVolatileState := by
  by_cases h : x.peers = []
  · rw [startElection_alone _ h]
    rfl
  · rw [startElection_of_peers _ h]
    rfl

omit [DecidableEq Addr] in
theorem handleVoteRequest_volatile (req : VoteRequest Id) :
    (x.handleVoteRequest req).1.toVolatileState = x.toVolatileState := by
  obtain ⟨T, vote, state, hb, -, he⟩ := handleVoteRequest_frame x req
  rw [he]

theorem handleVoteResponse_volatile (resp : VoteResponse Id) :
    (x.handleVoteResponse resp).toVolatileState = x.toVolatileState := by
  rcases handleVoteResponse_cases x resp with
    he | ⟨-, -, he⟩ | ⟨-, -, -, he | ⟨-, he⟩⟩ <;> rw [he] <;> rfl

omit [DecidableEq Addr] [DecidableEq Id] in
theorem propose_volatile (command : Command Id Cmd) (caller : Caller) :
    (x.propose command caller).toVolatileState = x.toVolatileState := by
  by_cases h : x.state = .leader
  · rw [propose_of_leader _ h]
  · rw [propose_of_not_leader _ h]

omit [DecidableEq Addr] [DecidableEq Id] in
theorem finishPropose_volatile (c : ProposeCall Id Cmd) (k : Nat) :
    (x.finishPropose c k).toVolatileState = x.toVolatileState := by
  cases finishPropose_cases x c k with
  | inl h =>
    rw [h.2]
    rfl
  | inr h =>
    rw [h.2]
    rfl

omit [DecidableEq Addr] [DecidableEq Id] in
theorem handleAppendEntries_lastApplied (req : AppendRequest Id Cmd) :
    (x.handleAppendEntries req).1.lastApplied = x.lastApplied := by
  cases Nat.lt_or_ge req.term x.currentTerm with
  | inl hT => rw [handleAppendEntries_old _ hT]
  | inr hT =>
    obtain ⟨log, commit, ok, -, he⟩ := handleAppendEntries_cases x hT
    rw [he]
    rfl

omit [DecidableEq Id] in
theorem advanceCommitIndex_lastApplied : x.advanceCommitIndex.lastApplied = x.lastApplied := by
  cases advanceCommitIndex_cases x with
  | inl he => rw [he]
  | inr h =>
    obtain ⟨i, -, he⟩ := h
    rw [he]
    rfl

omit [DecidableEq Id] in
theorem handleAppendEntriesResponse_lastApplied (peer : Addr) (resp : AppendResponse)
    (sent next : Nat) :
    (x.handleAppendEntriesResponse peer resp sent next).lastApplied = x.lastApplied := by
  rcases handleAppendEntriesResponse_cases x peer resp sent next with
    ⟨-, he⟩ | he | ⟨-, -, -, he⟩ | ⟨-, -, -, he⟩ <;> rw [he]
  · rfl
  · exact advanceCommitIndex_lastApplied _

omit [DecidableEq Addr] in
theorem handleVoteRequest_log (req : VoteRequest Id) : (x.handleVoteRequest req).1.log = x.log := by
  obtain ⟨T, vote, state, hb, -, he⟩ := handleVoteRequest_frame x req
  rw [he]

omit [DecidableEq Id] in
theorem advanceCommitIndex_log : x.advanceCommitIndex.log = x.log := by
  cases advanceCommitIndex_cases x with
  | inl he => rw [he]
  | inr h =>
    obtain ⟨i, -, he⟩ := h
    rw [he]
    rfl

omit [DecidableEq Id] in
theorem handleAppendEntriesResponse_log (peer : Addr) (resp : AppendResponse) (sent next : Nat) :
    (x.handleAppendEntriesResponse peer resp sent next).log = x.log := by
  rcases handleAppendEntriesResponse_cases x peer resp sent next with
    ⟨-, he⟩ | he | ⟨-, -, -, he⟩ | ⟨-, -, -, he⟩ <;> rw [he]
  · rfl
  · exact advanceCommitIndex_log _

omit [DecidableEq Addr] [DecidableEq Id] in
theorem finishPropose_log (c : ProposeCall Id Cmd) (k : Nat) :
    (x.finishPropose c k).log = x.log := by
  cases finishPropose_cases x c k with
  | inl h =>
    rw [h.2]
    rfl
  | inr h =>
    rw [h.2]
    rfl

end Frame
end DistSync.Raft.RaftNode
