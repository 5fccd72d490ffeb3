import DistSync.Raft.Entries
import DistSync.Raft.LogMatching

/-! The shape of logs: entries stand at their index, with ordered terms from 1 up to the
node's own. This needs neither one leader a term nor agreement between logs, only that
each request in flight was built from such a log. -/
namespace DistSync.Raft
open TermLog RaftNode
variable {Id Addr Cmd : Type}
variable {W : Wiring Id Addr} {s t : Cluster Id Addr Cmd} {x y : RaftNode Id Addr Cmd}

structure RaftNode.InOrder (x : RaftNode Id Addr Cmd) : Prop where
  log : Ascending LogEntry.term x.currentTerm x.log
  active : x.state ≠ .follower → 0 < x.currentTerm

def AppendRequest.InOrder (req : AppendRequest Id Cmd) : Prop :=
  ∃ l, Ascending LogEntry.term req.term l ∧ BuiltFrom req l

theorem RaftNode.InOrder.of_log (h : x.InOrder) (hlog : y.log = x.log)
    (hT : x.currentTerm ≤ y.currentTerm) (hstate : y.state ≠ .follower → x.state ≠ .follower) :
    y.InOrder where
  log := hlog ▸ h.log.mono hT
  active hy := (h.active (hstate hy)).trans_le hT

theorem RaftNode.InOrder.of_passive (h : x.InOrder) (hp : Passive x y) (hlog : y.log = x.log) :
    y.InOrder := by
  refine h.of_log hlog hp.term fun hy => ?_
  cases hstate : y.state with
  | follower => exact absurd hstate hy
  | candidate => rw [(hp.candidate hstate).1]; decide
  | leader => rw [(hp.leader hstate).1]; decide

theorem RaftNode.InOrder.append_newEntry (h : x.InOrder) (hx : x.state ≠ .follower)
    (command : Command Id Cmd) :
    Ascending LogEntry.term x.currentTerm (x.log ++ [x.newEntry command]) := by
  have hone : Ascending LogEntry.term x.currentTerm [x.newEntry command] := by
    refine ⟨List.pairwise_singleton _ _, ?_, ?_⟩ <;> rintro e he <;> rw [List.mem_singleton.mp he]
    · exact h.active hx
    · exact le_rfl
  refine h.log.append hone fun a ha e he => ?_
  rw [List.mem_singleton.mp he]
  exact h.log.le a ha

variable [DecidableEq Addr]

theorem RaftNode.InOrder.becomeLeader (h : x.InOrder) (hx : x.state ≠ .follower) :
    x.becomeLeader.InOrder where
  log := h.append_newEntry hx _
  active _ := h.active hx

omit [DecidableEq Addr] in
theorem RaftNode.InOrder.campaign (h : x.InOrder) : x.campaign.InOrder where
  log := h.log.mono (Nat.le_succ _)
  active _ := Nat.succ_pos _

theorem RaftNode.InOrder.startElection (h : x.InOrder) : x.startElection.1.InOrder := by
  by_cases hp : x.peers = []
  · rw [startElection_alone _ hp]
    exact h.campaign.becomeLeader (show NodeState.candidate ≠ .follower by decide)
  · rw [startElection_of_peers _ hp]
    exact h.campaign

omit [DecidableEq Addr] in
theorem RaftNode.InOrder.propose (h : x.InOrder) (command : Command Id Cmd) (caller : Caller) :
    (x.propose command caller).InOrder := by
  by_cases hx : x.state = .leader
  · have hact : x.state ≠ .follower := by rw [hx]; decide
    rw [propose_of_leader _ hx]
    exact ⟨h.append_newEntry hact command, fun _ => h.active hact⟩
  · rwa [propose_of_not_leader _ hx]

variable [DecidableEq Id]

omit [DecidableEq Addr] in
theorem RaftNode.InOrder.handleVoteRequest (h : x.InOrder) (req : VoteRequest Id) :
    (x.handleVoteRequest req).1.InOrder := by
  obtain ⟨T, vote, state, hb, hT, he⟩ := handleVoteRequest_frame x req
  rw [he]
  cases hT with
  | inl hsame => exact h.of_log rfl hsame.1.ge fun hy => hsame.2.1 ▸ hy
  | inr hnew => exact h.of_log rfl hnew.1.le fun hy => absurd hnew.2.2.1 hy

theorem RaftNode.InOrder.handleVoteResponse (h : x.InOrder) (resp : VoteResponse Id) :
    (x.handleVoteResponse resp).InOrder := by
  rcases handleVoteResponse_cases x resp with
    he | ⟨-, ht, he⟩ | ⟨hc, -, -, he | ⟨-, he⟩⟩ <;> rw [he]
  · exact h
  · exact h.of_passive (passive_becomeFollower x ht.le) rfl
  · exact h.of_log rfl le_rfl id
  · have hvote : (x.recordVote resp.voterId).InOrder := h.of_log rfl le_rfl id
    exact hvote.becomeLeader (show x.state ≠ .follower by rw [hc]; decide)

omit [DecidableEq Addr] [DecidableEq Id] in
/-- Where the previous entry agrees, the entries of the request are not younger than what they are
put behind, whether or not the logs agree before it. -/
theorem RaftNode.AppendOutcome.ascending {req : AppendRequest Id Cmd}
    {log : List (LogEntry Id Cmd)} {commit : Nat} {ok : Bool}
    (hout : x.AppendOutcome req log commit ok) (h : x.InOrder) (hT : x.currentTerm ≤ req.term)
    (hreq : req.InOrder) : Ascending LogEntry.term req.term log := by
  have hx := h.log.mono hT
  cases hout with
  | short hs => exact hx
  | mismatch hp hl ht => exact hx.sublist (List.take_sublist _ _)
  | success hl ht =>
    obtain ⟨l, hl', hb⟩ := hreq
    refine hx.splice (hb.entries ▸ hl'.sublist (List.drop_sublist _ _)) hl fun a ha e he => ?_
    rw [hb.entries] at he
    have hprev := hb.prevTerm
    cases hk : req.prevLogIndex with
    | zero =>
      rw [hk] at ha
      exact absurd ha List.not_mem_nil
    | succ k =>
      rw [hk] at ha he hprev ht
      have hlen : k + 1 ≤ l.length := by
        by_contra hshort
        rw [List.drop_eq_nil_iff.mpr (by omega)] at he
        exact absurd he List.not_mem_nil
      have hk' : l[k]? = some l[k] := List.getElem?_eq_getElem hlen
      rw [if_pos ⟨Nat.succ_pos k, hlen⟩, Nat.add_sub_cancel, hk'] at hprev
      obtain ⟨c, hc, hct⟩ := Option.map_eq_some_iff.mp (ht (Nat.succ_pos k))
      calc a.term ≤ c.term := hx.le_of_mem_take hc ha
        _ = l[k].term := hct.trans hprev
        _ ≤ e.term := hl'.le_of_mem_drop hk' he

omit [DecidableEq Addr] [DecidableEq Id] in
theorem RaftNode.InOrder.handleAppendEntries (h : x.InOrder) {req : AppendRequest Id Cmd}
    (hreq : req.InOrder) : (x.handleAppendEntries req).1.InOrder := by
  cases Nat.lt_or_ge req.term x.currentTerm with
  | inl hT => rwa [handleAppendEntries_old x hT]
  | inr hT =>
    obtain ⟨log, commit, ok, hout, he⟩ := handleAppendEntries_cases x hT
    rw [he]
    exact ⟨hout.ascending h hT hreq, fun hy => absurd rfl hy⟩

structure OrderInv (s : Cluster Id Addr Cmd) : Prop where
  node : ∀ n, (s.nodes n).InOrder
  request : ∀ src origin peer req nextIdx reply, .append src origin peer req nextIdx reply ∈ s.net →
    req.InOrder

theorem OrderInv.init : OrderInv (raft W Cmd).init where
  node n := ⟨.nil, fun h => absurd rfl h⟩
  request _ _ _ _ _ _ h := by cases h

theorem OrderInv.step (h : OrderInv s) {a : Action Id Cmd} (hs : (raft W Cmd).step s a = some t) :
    OrderInv t where
  node n := by
    have hmove {m : Id} {y : RaftNode Id Addr Cmd} {net : List (Rpc Id Addr Cmd)}
        {evs : List (Event Id Cmd)} (hy : y.InOrder) : ((s.move m y net evs).nodes n).InOrder :=
      move_nodes (P := fun _ x => RaftNode.InOrder x) h.node hy n
    cases step_cases hs with
    | election m hx => exact hmove (h.node m).startElection
    | voteRequest k src peer req dst hk hd => exact hmove ((h.node dst).handleVoteRequest req)
    | voteResponse k src peer req resp hk => exact hmove ((h.node src).handleVoteResponse resp)
    | appendRequest k src origin peer req nextIdx dst hk hd =>
      exact hmove ((h.node dst).handleAppendEntries
        (h.request src origin peer req nextIdx none (List.mem_of_getElem? hk)))
    | appendResponse k src origin peer req nextIdx resp hk ha =>
      exact hmove ((h.node src).of_passive (passive_handleAppendEntriesResponse ..)
        (handleAppendEntriesResponse_log ..))
    | propose m command => exact hmove ((h.node m).propose _ _)
    | finish m k c hk =>
      exact hmove ((h.node m).of_passive (passive_finishPropose ..) (finishPropose_log ..))
    | heartbeat m | heartbeatEnds m | replicateAll m | send m | skip m | apply m =>
      exact hmove ((h.node m).of_log rfl le_rfl id)
    | dropResponse k src => exact hmove (h.node src)
  request src origin peer req nextIdx reply hm := by
    rcases request_step hs hm with hm | ⟨dst, -, hm, -⟩ | ⟨-, rfl, -⟩
    · exact h.request _ _ _ _ _ _ hm
    · exact h.request _ _ _ _ _ _ hm
    · exact ⟨_, (h.node src).log, builtFrom_appendRequest ..⟩

theorem OrderInv.of_reachable (h : (raft W Cmd).Reachable s) : OrderInv s :=
  h.invariant .init fun _ _ _ _ hi _ hs => hi.step hs

/-- In every run, and however many leaders a term has. -/
theorem logs_well_formed (h : (raft W Cmd).Reachable s) :
    (∀ n i e, (s.nodes n).log[i]? = some e → e.index = i + 1) ∧
    (∀ n, ∀ e ∈ (s.nodes n).log, 1 ≤ e.term ∧ e.term ≤ (s.nodes n).currentTerm) ∧
    (∀ n, (s.nodes n).log.Pairwise fun a b => a.term ≤ b.term) ∧
    ∀ a t, (raft W Cmd).step s a = some t →
      ∀ n, (s.nodes n).currentTerm ≤ (t.nodes n).currentTerm := by
  have hlog (n : Id) := ((OrderInv.of_reachable h).node n).log
  refine ⟨fun n i e he => OccursAt.index h (.log n he), fun n e he => ?_, fun n => (hlog n).sorted,
    fun a t hs => term_step hs⟩
  exact ⟨(hlog n).pos e he, (hlog n).le e he⟩

theorem logs_well_formed_firstCopy :
    ∃ s, (raft (mesh 3) Nat).run (raft (mesh 3) Nat).init firstCopy = some s ∧
      (s.nodes 1).log = [⟨1, 1, .noOp 0, none, 0⟩] ∧
      ∀ e ∈ (s.nodes 1).log, 1 ≤ e.term ∧ e.term ≤ (s.nodes 1).currentTerm := by
  have hrun : ((raft (mesh 3) Nat).run (raft (mesh 3) Nat).init firstCopy).any (fun s =>
      (s.nodes 1).log = [⟨1, 1, .noOp 0, none, 0⟩]) = true := by
    decide +kernel
  obtain ⟨s, hs, hlog⟩ := (Option.any_eq_true ..).mp hrun
  exact ⟨s, hs, of_decide_eq_true hlog, (logs_well_formed (System.reachable_run hs)).2.1 1⟩

end DistSync.Raft
