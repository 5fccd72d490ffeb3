import DistSync.Raft.Transition
import DistSync.Raft.Handlers

/-! Voting: what a grant in flight, a candidate's tally and an elected leader
testify about votes cast, in every run and without assuming a single vote per term. -/
namespace DistSync.Raft
open TermLog RaftNode
variable {Id Addr Cmd : Type}
variable {W : Wiring Id Addr} {s t : Cluster Id Addr Cmd}

/-- From `x` to `y` the node starts no candidacy, and a candidacy it has stays as it is. -/
structure Steady (x y : RaftNode Id Addr Cmd) : Prop where
  nodeId : y.nodeId = x.nodeId
  peers : y.peers = x.peers
  term : x.currentTerm ≤ y.currentTerm
  candidate : y.state = .candidate →
    x.state = .candidate ∧ y.currentTerm = x.currentTerm ∧ y.log = x.log

/-- From `x` to `y` the node takes no part in an election. -/
structure Passive (x y : RaftNode Id Addr Cmd) : Prop extends Steady x y where
  vote : y.currentTerm = x.currentTerm → y.votedFor = x.votedFor ∨ y.votedFor = none
  tally : y.state = .candidate → y.votesReceived = x.votesReceived
  leader : y.state = .leader → x.state = .leader ∧ y.currentTerm = x.currentTerm

theorem Passive.of_core {x y : RaftNode Id Addr Cmd} (hid : y.nodeId = x.nodeId)
    (hp : y.peers = x.peers) (hr : y.toRaftState = x.toRaftState) (hs : y.state = x.state)
    (hv : y.votesReceived = x.votesReceived) : Passive x y where
  nodeId := hid
  peers := hp
  term := by rw [hr]
  vote := fun _ => .inl (by rw [hr])
  candidate := fun h => ⟨hs ▸ h, by rw [hr], by rw [hr]⟩
  tally := fun _ => hv
  leader := fun h => ⟨hs ▸ h, by rw [hr]⟩

theorem Passive.refl (x : RaftNode Id Addr Cmd) : Passive x x := .of_core rfl rfl rfl rfl rfl

theorem passive_becomeFollower (x : RaftNode Id Addr Cmd) {T : Nat} (h : x.currentTerm ≤ T) :
    Passive x (x.becomeFollower T) where
  nodeId := rfl
  peers := rfl
  term := h
  vote := fun _ => .inr rfl
  candidate := fun h => by cases h
  tally := fun _ => rfl
  leader := fun h => by cases h

theorem passive_handleAppendEntries (x : RaftNode Id Addr Cmd) (req : AppendRequest Id Cmd) :
    Passive x (x.handleAppendEntries req).1 := by
  cases Nat.lt_or_ge req.term x.currentTerm with
  | inl h =>
    rw [handleAppendEntries_old x h]
    exact .refl x
  | inr h =>
    obtain ⟨log, commit, ok, -, he⟩ := handleAppendEntries_cases x h
    rw [he]
    exact { passive_becomeFollower x h with
      candidate := fun h => by cases h
      leader := fun h => by cases h }

theorem passive_propose (x : RaftNode Id Addr Cmd) (command : Command Id Cmd) (caller : Caller) :
    Passive x (x.propose command caller) := by
  by_cases h : x.state = .leader
  · rw [propose_of_leader x h]
    exact
      { nodeId := rfl, peers := rfl, term := le_rfl, vote := fun _ => .inl rfl
        candidate := fun hc => by
          have hc : x.state = .candidate := hc
          rw [h] at hc
          cases hc
        tally := fun _ => rfl
        leader := fun _ => ⟨h, rfl⟩ }
  · rw [propose_of_not_leader x h]
    exact .refl x

variable [DecidableEq Addr]

theorem passive_advanceCommitIndex (x : RaftNode Id Addr Cmd) : Passive x x.advanceCommitIndex := by
  rcases advanceCommitIndex_cases x with h | ⟨i, -, h⟩ <;> rw [h] <;>
    exact .of_core rfl rfl rfl rfl rfl

theorem passive_handleAppendEntriesResponse (x : RaftNode Id Addr Cmd) (peer : Addr)
    (resp : AppendResponse) (sent next : Nat) :
    Passive x (x.handleAppendEntriesResponse peer resp sent next) := by
  rcases handleAppendEntriesResponse_cases x peer resp sent next with
    ⟨ht, h⟩ | h | ⟨-, -, -, h⟩ | ⟨-, -, -, h⟩ <;> rw [h]
  · exact passive_becomeFollower x (by omega)
  · exact .refl x
  · have hp := passive_advanceCommitIndex (x.recordMatch peer (next - 1 + sent))
    exact ⟨⟨hp.nodeId, hp.peers, hp.term, hp.candidate⟩, hp.vote, hp.tally, hp.leader⟩
  · exact .of_core rfl rfl rfl rfl rfl

omit [DecidableEq Addr] in
theorem passive_finishPropose (x : RaftNode Id Addr Cmd) (c : ProposeCall Id Cmd) (k : Nat) :
    Passive x (x.finishPropose c k) := by
  unfold finishPropose startHeartbeat
  cases c.caller <;> cases c.resolved <;> exact .of_core rfl rfl rfl rfl rfl

variable [DecidableEq Id]

omit [DecidableEq Addr] in
theorem steady_handleVoteRequest (x : RaftNode Id Addr Cmd) (req : VoteRequest Id) :
    Steady x (x.handleVoteRequest req).1 := by
  obtain ⟨T, vote, state, hb, ⟨rfl, rfl, rfl⟩ | ⟨hT, -, rfl, rfl⟩, he⟩ :=
    handleVoteRequest_frame x req <;> rw [he]
  · exact ⟨rfl, rfl, le_rfl, fun h => ⟨h, rfl, rfl⟩⟩
  · exact ⟨rfl, rfl, hT.le, fun h => by cases h⟩

omit [DecidableEq Addr] in
theorem Passive.move {n : Id} {y : RaftNode Id Addr Cmd} (h : Passive (s.nodes n) y)
    (net : List (Rpc Id Addr Cmd)) (evs : List (Event Id Cmd)) (m : Id) :
    Passive (s.nodes m) ((s.move n y net evs).nodes m) := by
  by_cases hm : m = n
  · subst hm
    rwa [move_self]
  · rw [move_of_ne _ _ _ _ hm]
    exact .refl _

omit [DecidableEq Addr] in
theorem Steady.move {n : Id} {y : RaftNode Id Addr Cmd} (h : Steady (s.nodes n) y)
    (net : List (Rpc Id Addr Cmd)) (evs : List (Event Id Cmd)) (m : Id) :
    Steady (s.nodes m) ((s.move n y net evs).nodes m) := by
  by_cases hm : m = n
  · subst hm
    rwa [move_self]
  · rw [move_of_ne _ _ _ _ hm]
    exact (Passive.refl _).toSteady

theorem term_step {a : Action Id Cmd} (hs : (raft W Cmd).step s a = some t) (n : Id) :
    (s.nodes n).currentTerm ≤ (t.nodes n).currentTerm := by
  have hmove {m : Id} {y : RaftNode Id Addr Cmd} {net : List (Rpc Id Addr Cmd)}
      {evs : List (Event Id Cmd)} (hy : (s.nodes m).currentTerm ≤ y.currentTerm) :
      (s.nodes n).currentTerm ≤ ((s.move m y net evs).nodes n).currentTerm :=
    move_nodes (P := fun k (x : RaftNode Id Addr Cmd) => (s.nodes k).currentTerm ≤ x.currentTerm)
      (fun _ => le_rfl) hy n
  cases step_cases hs with
  | election m hx =>
    refine hmove ?_
    by_cases hp : (s.nodes m).peers = []
    · rw [startElection_alone _ hp]
      exact Nat.le_succ _
    · rw [startElection_of_peers _ hp]
      exact Nat.le_succ _
  | voteRequest k src peer req dst hk hd => exact hmove (steady_handleVoteRequest ..).term
  | voteResponse k src peer req resp hk =>
    refine hmove ?_
    rcases handleVoteResponse_cases (s.nodes src) resp with
      he | ⟨-, ht, he⟩ | ⟨-, -, -, he | ⟨-, he⟩⟩ <;> rw [he]
    · exact ht.le
    · exact le_rfl
    · exact le_rfl
  | appendRequest k src origin peer req nextIdx dst hk hd =>
    exact hmove (passive_handleAppendEntries ..).term
  | appendResponse k src origin peer req nextIdx resp hk ha =>
    exact hmove (passive_handleAppendEntriesResponse ..).term
  | propose m command => exact hmove (passive_propose ..).term
  | finish m k c hk => exact hmove (passive_finishPropose ..).term
  | _ => exact hmove le_rfl

/-- The vote was cast while nobody had become leader of its term. -/
def Timely (h : List (Event Id Cmd)) (v : Id) (T : Nat) (c : Id)
    (lv : List (LogEntry Id Cmd)) : Prop :=
  ∃ newer older, h = newer ++ .voted v T c lv :: older ∧ ∀ m l, .becameLeader m T l ∉ older

/-- `v` voted for `c` in term `T` holding a log no more up to date than `l`. -/
def Supports (h : List (Event Id Cmd)) (v : Id) (T : Nat) (c : Id)
    (l : List (LogEntry Id Cmd)) (late : Prop) : Prop :=
  ∃ lv, .voted v T c lv ∈ h ∧ UpToDate l lv ∧ (Timely h v T c lv ∨ late)

def Led (h : List (Event Id Cmd)) (T : Nat) : Prop := ∃ m l, Event.becameLeader m T l ∈ h

def LedByOther (h : List (Event Id Cmd)) (n : Id) (T : Nat) : Prop :=
  ∃ m l, m ≠ n ∧ Event.becameLeader m T l ∈ h

section History
variable {h : List (Event Id Cmd)} {v c n : Id} {T : Nat} {l lv : List (LogEntry Id Cmd)}
omit [DecidableEq Id]

theorem Timely.mono (ht : Timely h v T c lv) (a : List (Event Id Cmd)) :
    Timely (a ++ h) v T c lv := by
  obtain ⟨newer, older, rfl, ho⟩ := ht
  exact ⟨a ++ newer, older, by rw [List.append_assoc], ho⟩

theorem Led.mono (hl : Led h T) (a : List (Event Id Cmd)) : Led (a ++ h) T := by
  obtain ⟨m, l, hm⟩ := hl
  exact ⟨m, l, List.mem_append_right a hm⟩

theorem LedByOther.mono (hl : LedByOther h n T) (a : List (Event Id Cmd)) :
    LedByOther (a ++ h) n T := by
  obtain ⟨m, l, hne, hm⟩ := hl
  exact ⟨m, l, hne, List.mem_append_right a hm⟩

theorem Supports.mono {late late' : Prop} (hs : Supports h v T c l late)
    (a : List (Event Id Cmd)) (hl : late → late') : Supports (a ++ h) v T c l late' := by
  obtain ⟨lv, hv, hu, hd⟩ := hs
  exact ⟨lv, List.mem_append_right a hv, hu, hd.imp (fun ht => ht.mono a) hl⟩

/-- A vote just cast is timely, or its term already has a leader. -/
theorem Supports.cast {late : Prop} (newer h : List (Event Id Cmd)) (hu : UpToDate l lv)
    (hl : Led h T → late) : Supports (newer ++ .voted v T c lv :: h) v T c l late := by
  refine ⟨lv, by simp, hu, ?_⟩
  by_cases hled : Led h T
  · exact .inr (hl hled)
  · exact .inl ⟨newer, h, rfl, fun m l hm => hled ⟨m, l, hm⟩⟩

theorem LedByOther.of_led (hl : Led h T) (hn : ∀ l, .becameLeader n T l ∉ h) :
    LedByOther h n T := by
  obtain ⟨m, l, hm⟩ := hl
  exact ⟨m, l, fun hmn => hn l (hmn ▸ hm), hm⟩

end History

structure VoteInv (W : Wiring Id Addr) (s : Cluster Id Addr Cmd) : Prop where
  nodeId : ∀ n, (s.nodes n).nodeId = n
  peers : ∀ n, (s.nodes n).peers = W.peers n
  past : ∀ v T c l, .voted v T c l ∈ s.history → 0 < T ∧ T ≤ (s.nodes v).currentTerm
  request : ∀ src peer req reply, .vote src peer req reply ∈ s.net → req.candidateId = src ∧
    0 < req.term ∧ req.term ≤ (s.nodes src).currentTerm ∧ ((s.nodes src).state = .candidate →
      req.term = (s.nodes src).currentTerm → req = (s.nodes src).voteRequest)
  reply : ∀ src peer req resp, .vote src peer req (some resp) ∈ s.net → resp.voteGranted = true →
    (s.nodes src).state = .candidate → resp.term = (s.nodes src).currentTerm →
    Supports s.history resp.voterId resp.term src (s.nodes src).log (Led s.history resp.term)
  replyTerm : ∀ src peer req resp, .vote src peer req (some resp) ∈ s.net →
    resp.voteGranted = true → resp.term = req.term
  tally : ∀ n, (s.nodes n).state = .candidate → ∀ v ∈ (s.nodes n).votesReceived,
    Supports s.history v (s.nodes n).currentTerm n (s.nodes n).log
      (Led s.history (s.nodes n).currentTerm)
  led : ∀ n T l, .becameLeader n T l ∈ s.history → T ≤ (s.nodes n).currentTerm ∧
    (T = (s.nodes n).currentTerm → (s.nodes n).state ≠ .candidate)
  elected : ∀ n T l, .becameLeader n T l ∈ s.history →
    ∃ Q : Finset Id, ((W.peers n).length + 1) / 2 + 1 ≤ Q.card ∧
      ∀ v ∈ Q, Supports s.history v T n l (LedByOther s.history n T)

omit [DecidableEq Addr] [DecidableEq Id] in
theorem voteRequest_congr {x y : RaftNode Id Addr Cmd} (hid : y.nodeId = x.nodeId)
    (ht : y.currentTerm = x.currentTerm) (hl : y.log = x.log) : y.voteRequest = x.voteRequest := by
  simp only [voteRequest, hid, ht, hl]

omit [DecidableEq Addr] [DecidableEq Id] in
/-- A step in which no candidacy starts. What is new (votes cast, grants in flight,
votes counted, leaders) has to be accounted for. -/
theorem VoteInv.of_steady (h : VoteInv W s) (hp : ∀ m, Steady (s.nodes m) (t.nodes m))
    {a : List (Event Id Cmd)} (hh : t.history = a ++ s.history)
    (hv : ∀ v T c l, .voted v T c l ∈ a → 0 < T ∧ T ≤ (t.nodes v).currentTerm)
    (hreq : ∀ src peer req reply, .vote src peer req reply ∈ t.net →
      ∃ reply', .vote src peer req reply' ∈ s.net)
    (hrep : ∀ src peer req resp, .vote src peer req (some resp) ∈ t.net →
      resp.voteGranted = true → .vote src peer req (some resp) ∈ s.net ∨
        resp.term = req.term ∧ ((s.nodes src).state = .candidate →
          resp.term = (s.nodes src).currentTerm → Supports t.history resp.voterId resp.term src
            (s.nodes src).log (Led t.history resp.term)))
    (htal : ∀ n, (t.nodes n).state = .candidate → ∀ v ∈ (t.nodes n).votesReceived,
      v ∈ (s.nodes n).votesReceived ∨ Supports t.history v (t.nodes n).currentTerm n
        (t.nodes n).log (Led t.history (t.nodes n).currentTerm))
    (hb : ∀ n T l, .becameLeader n T l ∈ a → T = (t.nodes n).currentTerm ∧
      (t.nodes n).state ≠ .candidate ∧ ∃ Q : Finset Id, ((W.peers n).length + 1) / 2 + 1 ≤ Q.card ∧
        ∀ v ∈ Q, Supports t.history v T n l (LedByOther t.history n T)) : VoteInv W t where
  nodeId n := by rw [(hp n).nodeId, h.nodeId]
  peers n := by rw [(hp n).peers, h.peers]
  past v T c l hm := by
    rw [hh, List.mem_append] at hm
    cases hm with
    | inl hm => exact hv v T c l hm
    | inr hm => exact (h.past v T c l hm).imp_right fun hT => hT.trans (hp v).term
  request src peer req reply hm := by
    obtain ⟨reply', hs⟩ := hreq src peer req reply hm
    obtain ⟨hid, hpos, hT, hr⟩ := h.request src peer req reply' hs
    refine ⟨hid, hpos, hT.trans (hp src).term, fun hc he => ?_⟩
    obtain ⟨hcs, ht, hl⟩ := (hp src).candidate hc
    rw [voteRequest_congr (hp src).nodeId ht hl]
    exact hr hcs (he.trans ht)
  reply src peer req resp hm hg hc he := by
    obtain ⟨hcs, ht, hl⟩ := (hp src).candidate hc
    rw [hl]
    cases hrep src peer req resp hm hg with
    | inl hs =>
      rw [hh]
      exact (h.reply src peer req resp hs hg hcs (he.trans ht)).mono a fun hd => hd.mono a
    | inr hs => exact hs.2 hcs (he.trans ht)
  replyTerm src peer req resp hm hg :=
    (hrep src peer req resp hm hg).elim (fun hs => h.replyTerm src peer req resp hs hg) And.left
  tally n hc v hm := by
    obtain ⟨hcs, ht, hl⟩ := (hp n).candidate hc
    cases htal n hc v hm with
    | inl hs =>
      rw [hh, ht, hl]
      exact (h.tally n hcs v hs).mono a fun hd => hd.mono a
    | inr hs => exact hs
  led n T l hm := by
    rw [hh, List.mem_append] at hm
    cases hm with
    | inl hm =>
      obtain ⟨hT, hc, -⟩ := hb n T l hm
      exact ⟨hT.le, fun _ => hc⟩
    | inr hm =>
      obtain ⟨hT, hne⟩ := h.led n T l hm
      refine ⟨hT.trans (hp n).term, fun he hc => ?_⟩
      obtain ⟨hcs, ht, -⟩ := (hp n).candidate hc
      exact hne (he.trans ht) hcs
  elected n T l hm := by
    rw [hh, List.mem_append] at hm
    cases hm with
    | inl hm => exact (hb n T l hm).2.2
    | inr hm =>
      obtain ⟨Q, hQ, hs⟩ := h.elected n T l hm
      refine ⟨Q, hQ, fun v hq => ?_⟩
      rw [hh]
      exact (hs v hq).mono a fun hd => hd.mono a

omit [DecidableEq Addr] [DecidableEq Id] in
theorem not_mem_observe_voted {n v c : Id} {T : Nat} {l : List (LogEntry Id Cmd)}
    {x y : RaftNode Id Addr Cmd} : .voted v T c l ∉ observe n x y := by
  unfold observe
  split <;> split <;> split <;> simp

omit [DecidableEq Addr] in
theorem VoteInv.move_passive (h : VoteInv W s) {n : Id} {y : RaftNode Id Addr Cmd}
    (hp : Passive (s.nodes n) y) {net : List (Rpc Id Addr Cmd)} {evs : List (Event Id Cmd)}
    (hv : ∀ v T c l, Event.voted v T c l ∉ evs) (hb : ∀ m T l, Event.becameLeader m T l ∉ evs)
    (hnet : ∀ src peer req reply, .vote src peer req reply ∈ net →
      .vote src peer req reply ∈ s.net) : VoteInv W (s.move n y net evs) := by
  have hpm := hp.move net evs
  refine h.of_steady (fun m => (hpm m).toSteady) (move_history ..)
    (fun v T c l hm => ?_) (fun src peer req reply hm => ⟨reply, hnet _ _ _ _ hm⟩)
    (fun src peer req resp hm _ => .inl (hnet _ _ _ _ hm))
    (fun m hc v hm => .inl (by rwa [(hpm m).tally hc] at hm)) (fun m T l hm => ?_)
  · cases List.mem_append.mp hm with
    | inl hm => exact absurd hm not_mem_observe_voted
    | inr hm => exact absurd hm (hv v T c l)
  · cases List.mem_append.mp hm with
    | inl hm =>
      obtain ⟨-, -, -, hx, hy⟩ := mem_observe_becameLeader.mp hm
      exact absurd (hp.leader hy).1 hx
    | inr hm => exact absurd hm (hb m T l)

omit [DecidableEq Id] in
theorem upToDate_refl (l : List (LogEntry Id Cmd)) : UpToDate l l := .inr ⟨rfl, le_rfl⟩

/-- `t` is `s` after `n` has stood for election and asked its peers for their votes. -/
structure Campaigned (W : Wiring Id Addr) (s t : Cluster Id Addr Cmd) (n : Id) : Prop where
  node : t.nodes n = (s.nodes n).campaign
  others : ∀ m, m ≠ n → t.nodes m = s.nodes m
  net : t.net = s.net ++ (W.peers n).map fun p => .vote n p (s.nodes n).campaign.voteRequest none
  history : t.history = .voted n ((s.nodes n).currentTerm + 1) n (s.nodes n).log :: s.history

namespace Campaigned
variable {n : Id}
omit [DecidableEq Addr] [DecidableEq Id]

theorem term (hc : Campaigned W s t n) : (t.nodes n).currentTerm = (s.nodes n).currentTerm + 1 := by
  rw [hc.node]
  rfl

theorem term_mono (hc : Campaigned W s t n) (m : Id) :
    (s.nodes m).currentTerm ≤ (t.nodes m).currentTerm := by
  by_cases hm : m = n
  · rw [hm, hc.term]
    exact Nat.le_succ _
  · rw [hc.others m hm]

theorem vote_cases (hc : Campaigned W s t n) {src : Id} {peer : Addr} {req : VoteRequest Id}
    {reply : Option (VoteResponse Id)} (hm : .vote src peer req reply ∈ t.net) :
    .vote src peer req reply ∈ s.net ∨
      src = n ∧ req = (s.nodes n).campaign.voteRequest ∧ reply = none := by
  rw [hc.net, List.mem_append, List.mem_map] at hm
  cases hm with
  | inl hm => exact .inl hm
  | inr hm =>
    obtain ⟨p, -, hm⟩ := hm
    cases hm
    exact .inr ⟨rfl, rfl, rfl⟩

theorem answered (hc : Campaigned W s t n) {src : Id} {peer : Addr} {req : VoteRequest Id}
    {resp : VoteResponse Id} (hm : .vote src peer req (some resp) ∈ t.net) :
    .vote src peer req (some resp) ∈ s.net := by
  refine (hc.vote_cases hm).resolve_right ?_
  rintro ⟨-, -, hr⟩
  cases hr

theorem supports (hc : Campaigned W s t n) {v c : Id} {T : Nat} {l : List (LogEntry Id Cmd)}
    (hs : Supports s.history v T c l (Led s.history T)) :
    Supports t.history v T c l (Led t.history T) := by
  rw [hc.history]
  exact hs.mono [_] fun hd => hd.mono [_]

end Campaigned

section Candidacy
omit [DecidableEq Addr]

theorem VoteInv.campaigned_request (h : VoteInv W s) {n : Id} (hc : Campaigned W s t n) {src : Id}
    {peer : Addr} {req : VoteRequest Id} {reply : Option (VoteResponse Id)}
    (hm : .vote src peer req reply ∈ t.net) :
    req.candidateId = src ∧ 0 < req.term ∧ req.term ≤ (t.nodes src).currentTerm ∧
      ((t.nodes src).state = .candidate → req.term = (t.nodes src).currentTerm →
        req = (t.nodes src).voteRequest) := by
  cases hc.vote_cases hm with
  | inl hm =>
    obtain ⟨hid, hpos, hT, hr⟩ := h.request src peer req reply hm
    refine ⟨hid, hpos, hT.trans (hc.term_mono src), fun hcand he => ?_⟩
    by_cases hs : src = n
    · subst hs
      have hterm := hc.term
      omega
    · rw [hc.others src hs] at hcand he ⊢
      exact hr hcand he
  | inr hnew =>
    obtain ⟨rfl, rfl, -⟩ := hnew
    rw [hc.node]
    exact ⟨h.nodeId src, Nat.succ_pos _, le_rfl, fun _ _ => rfl⟩

/-- A grant under way answers a candidacy of an older term than that of `n`. -/
theorem VoteInv.campaigned_reply (h : VoteInv W s) {n : Id} (hc : Campaigned W s t n) {src : Id}
    {peer : Addr} {req : VoteRequest Id} {resp : VoteResponse Id}
    (hm : .vote src peer req (some resp) ∈ t.net) (hg : resp.voteGranted = true)
    (hcand : (t.nodes src).state = .candidate) (he : resp.term = (t.nodes src).currentTerm) :
    Supports t.history resp.voterId resp.term src (t.nodes src).log (Led t.history resp.term) := by
  have hold := hc.answered hm
  by_cases hs : src = n
  · subst hs
    have hT := (h.request src peer req _ hold).2.2.1
    have hr := h.replyTerm src peer req resp hold hg
    have hterm := hc.term
    omega
  · rw [hc.others src hs] at hcand he ⊢
    exact hc.supports (h.reply src peer req resp hold hg hcand he)

theorem VoteInv.campaigned_tally (h : VoteInv W s) {n : Id} (hc : Campaigned W s t n) {m v : Id}
    (hcand : (t.nodes m).state = .candidate) (hv : v ∈ (t.nodes m).votesReceived) :
    Supports t.history v (t.nodes m).currentTerm m (t.nodes m).log
      (Led t.history (t.nodes m).currentTerm) := by
  by_cases hm : m = n
  · subst hm
    have hvm : v = m := by
      rw [hc.node] at hv
      exact (Finset.mem_singleton.mp hv).trans (h.nodeId m)
    rw [hvm, hc.term, hc.node, hc.history]
    exact Supports.cast [] s.history (upToDate_refl _) fun hd => hd.mono [_]
  · rw [hc.others m hm] at hcand hv ⊢
    exact hc.supports (h.tally m hcand v hv)

theorem VoteInv.campaigned (h : VoteInv W s) {n : Id} (hc : Campaigned W s t n) : VoteInv W t where
  nodeId m := by
    by_cases hm : m = n
    · subst hm
      rw [hc.node]
      exact h.nodeId m
    · rw [hc.others m hm, h.nodeId]
  peers m := by
    by_cases hm : m = n
    · subst hm
      rw [hc.node]
      exact h.peers m
    · rw [hc.others m hm, h.peers]
  past v T c l hm := by
    rw [hc.history, List.mem_cons] at hm
    cases hm with
    | inl hm =>
      cases hm
      exact ⟨Nat.succ_pos _, hc.term.ge⟩
    | inr hm => exact (h.past v T c l hm).imp_right fun hT => hT.trans (hc.term_mono v)
  request _ _ _ _ hm := h.campaigned_request hc hm
  reply _ _ _ _ hm hg hcand he := h.campaigned_reply hc hm hg hcand he
  replyTerm src peer req resp hm hg := h.replyTerm src peer req resp (hc.answered hm) hg
  tally _ hcand _ hv := h.campaigned_tally hc hcand hv
  led m T l hm := by
    rw [hc.history, List.mem_cons] at hm
    obtain ⟨hT, hne⟩ := h.led m T l (hm.resolve_left (by simp))
    by_cases hmn : m = n
    · subst hmn
      have hterm := hc.term
      exact ⟨by omega, fun he => by omega⟩
    · rw [hc.others m hmn]
      exact ⟨hT, hne⟩
  elected m T l hm := by
    rw [hc.history, List.mem_cons] at hm
    obtain ⟨Q, hQ, hs⟩ := h.elected m T l (hm.resolve_left (by simp))
    refine ⟨Q, hQ, fun v hv => ?_⟩
    rw [hc.history]
    exact (hs v hv).mono [_] fun hd => hd.mono [_]

end Candidacy

omit [DecidableEq Addr] [DecidableEq Id] in
theorem VoteInv.not_led (h : VoteInv W s) {n : Id} {T : Nat}
    (hT : (s.nodes n).currentTerm < T ∨
      (s.nodes n).currentTerm = T ∧ (s.nodes n).state = .candidate) (l : List (LogEntry Id Cmd)) :
    .becameLeader n T l ∉ s.history := by
  intro hm
  obtain ⟨hle, hne⟩ := h.led n T l hm
  cases hT with
  | inl hT => omega
  | inr hT =>
    obtain ⟨hT, hc⟩ := hT
    exact hne hT.symm hc

/-- A node without peers wins its election on the spot. -/
theorem VoteInv.alone (h : VoteInv W s) (n : Id) (hp : W.peers n = []) :
    VoteInv W (s.move n (s.nodes n).campaign.becomeLeader s.net
      [.voted n ((s.nodes n).currentTerm + 1) n (s.nodes n).log]) := by
  have hx : Steady (s.nodes n) (s.nodes n).campaign.becomeLeader :=
    ⟨rfl, rfl, Nat.le_succ _, fun hc => by cases hc⟩
  refine h.of_steady (fun m => hx.move _ _ m) (move_history ..) (fun v T c l hm => ?_)
    (fun src peer req reply hm => ⟨reply, hm⟩) (fun src peer req resp hm _ => .inl hm)
    (fun m hc v hm => .inl ?_) (fun m T l hm => ?_)
  · cases List.mem_append.mp hm with
    | inl hm => exact absurd hm not_mem_observe_voted
    | inr hm =>
      cases List.mem_singleton.mp hm
      rw [move_self]
      exact ⟨Nat.succ_pos _, le_rfl⟩
  · by_cases hmn : m = n
    · subst hmn
      rw [move_self] at hc
      cases hc
    · rwa [move_of_ne _ _ _ _ hmn] at hm
  · cases List.mem_append.mp hm with
    | inl hm =>
      obtain ⟨rfl, rfl, rfl, -, -⟩ := mem_observe_becameLeader.mp hm
      rw [move_self]
      refine ⟨rfl, by simp, {m}, by simp [hp], fun v hv => ?_⟩
      rw [Finset.mem_singleton.mp hv, move_history, List.append_assoc, List.singleton_append]
      refine Supports.cast _ _ (upToDate_refl _) fun hd => ?_
      have hlt : (s.nodes m).currentTerm < (s.nodes m).currentTerm + 1 := Nat.lt_succ_self _
      exact ((LedByOther.of_led hd (h.not_led (.inl hlt))).mono [_]).mono _
    | inr hm => simp at hm

omit [DecidableEq Addr] in
theorem VoteInv.voteRequest (h : VoteInv W s) {k : Nat} {src : Id} {peer : Addr}
    {req : VoteRequest Id} {dst : Id} (hk : s.net[k]? = some (.vote src peer req none)) :
    VoteInv W (s.move dst ((s.nodes dst).handleVoteRequest req).1
      (s.net.set k (.vote src peer req (some ((s.nodes dst).handleVoteRequest req).2)))
      (if ((s.nodes dst).handleVoteRequest req).2.voteGranted then
        [.voted dst req.term req.candidateId (s.nodes dst).log] else [])) := by
  have hsrc : .vote src peer req none ∈ s.net := List.mem_of_getElem? hk
  obtain ⟨T, vote, state, hb, hstate, he⟩ := handleVoteRequest_frame (s.nodes dst) req
  have hgrant := handleVoteRequest_granted (s.nodes dst) req
  refine h.of_steady (fun m => (steady_handleVoteRequest ..).move _ _ m) (move_history ..)
    (fun v T' c l hm => ?_) (fun src' peer' req' reply hm => ?_)
    (fun src' peer' req' resp hm hg => ?_) (fun m hc v hm => .inl ?_) (fun m T' l hm => ?_)
  · cases List.mem_append.mp hm with
    | inl hm => exact absurd hm not_mem_observe_voted
    | inr hm =>
      split at hm
      · rename_i hg
        simp only [List.mem_singleton, Event.voted.injEq] at hm
        obtain ⟨rfl, rfl, -, -⟩ := hm
        rw [move_self, (handleVoteRequest_of_grants _ (hgrant.mp hg)).1]
        exact ⟨(h.request src peer req none hsrc).2.1, le_rfl⟩
      · simp at hm
  · cases List.mem_or_eq_of_mem_set hm with
    | inl hm => exact ⟨reply, hm⟩
    | inr hm =>
      cases hm
      exact ⟨none, hsrc⟩
  · cases List.mem_or_eq_of_mem_set hm with
    | inl hm => exact .inl hm
    | inr hm =>
      cases hm
      have hgr := hgrant.mp hg
      obtain ⟨-, -, hr⟩ := handleVoteRequest_of_grants _ hgr
      have hterm : ((s.nodes dst).handleVoteRequest req).2.term = req.term := by rw [hr]
      have hvoter : ((s.nodes dst).handleVoteRequest req).2.voterId = dst := by
        rw [hr, h.nodeId]
      refine .inr ⟨hterm, fun hc ht => ?_⟩
      rw [hterm] at ht
      obtain ⟨hid, -, -, hreq⟩ := h.request src peer req none hsrc
      have hu : UpToDate (s.nodes src).log (s.nodes dst).log := by
        rw [← logOk_voteRequest, ← hreq hc ht]
        exact hgr.1
      rw [hterm, hvoter, move_history, if_pos hg, hid, List.append_assoc, List.singleton_append]
      exact Supports.cast _ _ hu fun hd => (hd.mono [_]).mono _
  · by_cases hmd : m = dst
    · subst hmd
      rwa [move_self, he] at hm
    · rwa [move_of_ne _ _ _ _ hmd] at hm
  · cases List.mem_append.mp hm with
    | inl hm =>
      obtain ⟨-, -, -, hx, hy⟩ := mem_observe_becameLeader.mp hm
      rw [he] at hy
      cases hstate with
      | inl hstate =>
        obtain ⟨-, hst, -⟩ := hstate
        exact absurd (hst ▸ hy) hx
      | inr hstate =>
        obtain ⟨-, -, hst, -⟩ := hstate
        exact absurd (hst ▸ hy) (by simp)
    | inr hm => split at hm <;> simp at hm

theorem VoteInv.voteResponse (h : VoteInv W s) {k : Nat} {src : Id} {peer : Addr}
    {req : VoteRequest Id} {resp : VoteResponse Id}
    (hk : s.net[k]? = some (.vote src peer req (some resp))) :
    VoteInv W (s.move src ((s.nodes src).handleVoteResponse resp) (s.net.eraseIdx k) []) := by
  have hmem : .vote src peer req (some resp) ∈ s.net := List.mem_of_getElem? hk
  have hnet (src' : Id) (peer' : Addr) (req' : VoteRequest Id) (reply : Option (VoteResponse Id))
      (hm : .vote src' peer' req' reply ∈ s.net.eraseIdx k) :
      .vote src' peer' req' reply ∈ s.net := List.mem_of_mem_eraseIdx hm
  rcases handleVoteResponse_cases (s.nodes src) resp with
    he | ⟨-, ht, he⟩ | ⟨hc, hg, ht, he | ⟨hq, he⟩⟩ <;> rw [he]
  · exact h.move_passive (.refl _) (by simp) (by simp) hnet
  · exact h.move_passive (passive_becomeFollower _ ht.le) (by simp) (by simp) hnet
  · have hx : Steady (s.nodes src) ((s.nodes src).recordVote resp.voterId) :=
      ⟨rfl, rfl, le_rfl, fun hc => ⟨hc, rfl, rfl⟩⟩
    refine h.of_steady (fun m => hx.move _ _ m) (move_history ..) (fun v T c l hm => ?_)
      (fun src' peer' req' reply hm => ⟨reply, hnet _ _ _ _ hm⟩)
      (fun src' peer' req' resp' hm _ => .inl (hnet _ _ _ _ hm))
      (fun m hcm v hm => ?_) (fun m T l hm => ?_)
    · simp [not_mem_observe_voted] at hm
    · by_cases hms : m = src
      · subst hms
        rw [move_self] at hm ⊢
        cases Finset.mem_insert.mp hm with
        | inl hm =>
          have hs := h.reply m peer req resp hmem hg hc ht
          rw [ht] at hs
          rw [hm, move_history, List.append_nil]
          exact .inr (hs.mono _ fun hd => hd.mono _)
        | inr hm => exact .inl hm
      · rw [move_of_ne _ _ _ _ hms] at hm
        exact .inl hm
    · rw [List.append_nil] at hm
      obtain ⟨-, -, -, -, hy⟩ := mem_observe_becameLeader.mp hm
      exact absurd (hc.symm.trans hy) (by simp)
  · have hx : Steady (s.nodes src) ((s.nodes src).recordVote resp.voterId).becomeLeader :=
      ⟨rfl, rfl, le_rfl, fun hc => by cases hc⟩
    refine h.of_steady (fun m => hx.move _ _ m) (move_history ..) (fun v T c l hm => ?_)
      (fun src' peer' req' reply hm => ⟨reply, hnet _ _ _ _ hm⟩)
      (fun src' peer' req' resp' hm _ => .inl (hnet _ _ _ _ hm))
      (fun m hcm v hm => .inl ?_) (fun m T l hm => ?_)
    · simp [not_mem_observe_voted] at hm
    · by_cases hms : m = src
      · subst hms
        rw [move_self] at hcm
        cases hcm
      · rwa [move_of_ne _ _ _ _ hms] at hm
    · rw [List.append_nil] at hm
      obtain ⟨rfl, rfl, rfl, -, -⟩ := mem_observe_becameLeader.mp hm
      rw [move_self]
      have hled (hd : Led s.history (s.nodes m).currentTerm) :=
        LedByOther.of_led hd (h.not_led (.inr ⟨rfl, hc⟩))
      refine ⟨rfl, by simp, insert resp.voterId (s.nodes m).votesReceived, ?_, fun v hv => ?_⟩
      · rwa [quorum, h.peers] at hq
      · rw [move_history, List.append_nil]
        cases Finset.mem_insert.mp hv with
        | inl hv =>
          have hs := h.reply m peer req resp hmem hg hc ht
          rw [ht] at hs
          rw [hv]
          exact hs.mono _ fun hd => (hled hd).mono _
        | inr hv => exact (h.tally m hc v hv).mono _ fun hd => (hled hd).mono _

theorem VoteInv.step (h : VoteInv W s) {a : Action Id Cmd}
    (hs : (raft W Cmd).step s a = some t) : VoteInv W t := by
  have herase {k : Nat} (src : Id) (peer : Addr) (req : VoteRequest Id)
      (reply : Option (VoteResponse Id)) (hm : .vote src peer req reply ∈ s.net.eraseIdx k) :
      .vote src peer req reply ∈ s.net := List.mem_of_mem_eraseIdx hm
  cases step_cases hs with
  | election n hx =>
    by_cases hp : (s.nodes n).peers = []
    · simp only [startElection_alone _ hp, List.map_nil, List.append_nil]
      exact h.alone n (h.peers n ▸ hp)
    · have hobs : observe n (s.nodes n) (s.nodes n).campaign = [] := by
        simp [observe, RaftNode.campaign]
      simp only [startElection_of_peers _ hp, List.map_map, h.peers n]
      refine h.campaigned ⟨move_self .., fun m hm => move_of_ne _ _ _ _ hm, rfl, ?_⟩
      rw [move_history, hobs]
      rfl
  | voteRequest k src peer req dst hk hd => exact h.voteRequest hk
  | voteResponse k src peer req resp hk => exact h.voteResponse hk
  | appendRequest k src origin peer req nextIdx dst hk hd =>
    refine h.move_passive (passive_handleAppendEntries _ _) (fun v T c l hm => ?_)
      (fun m T l hm => ?_) (fun src' peer' req' reply hm => ?_)
    · split at hm <;> simp at hm
    · split at hm <;> simp at hm
    · exact (List.mem_or_eq_of_mem_set hm).resolve_right (by simp)
  | appendResponse k src origin peer req nextIdx resp hk ha =>
    exact h.move_passive (passive_handleAppendEntriesResponse ..) (by simp) (by simp) herase
  | dropResponse k src origin peer req nextIdx resp hk =>
    exact h.move_passive (.refl _) (by simp) (by simp) herase
  | send n k origin peer hk ha =>
    refine h.move_passive ?_ (by simp) (by simp) fun src' peer' req' reply hm => ?_
    · exact .of_core rfl rfl rfl rfl rfl
    · simpa using hm
  | propose n command => exact h.move_passive (passive_propose ..) (by simp) (by simp) (by simp)
  | finish n k c hk => exact h.move_passive (passive_finishPropose ..) (by simp) (by simp) (by simp)
  | apply n hx =>
    refine h.move_passive ?_ (fun v T c l hm => ?_) (fun m T l hm => ?_) (by simp)
    · exact .of_core rfl rfl rfl rfl rfl
    · split at hm <;> simp at hm
    · split at hm <;> simp at hm
  | _ =>
    refine h.move_passive ?_ (by simp) (by simp) (by simp)
    exact .of_core rfl rfl rfl rfl rfl

omit [DecidableEq Addr] [DecidableEq Id] in
theorem VoteInv.led_pos (h : VoteInv W s) {n : Id} {T : Nat} {l : List (LogEntry Id Cmd)}
    (hn : .becameLeader n T l ∈ s.history) : 0 < T := by
  obtain ⟨Q, hQ, hs⟩ := h.elected n T l hn
  obtain ⟨v, hv⟩ := Finset.card_pos.mp (Nat.lt_of_lt_of_le (Nat.succ_pos _) hQ)
  obtain ⟨lv, hm, -⟩ := hs v hv
  exact (h.past v T n lv hm).1

theorem VoteInv.init : VoteInv W (raft W Cmd).init where
  nodeId _ := rfl
  peers _ := rfl
  past _ _ _ _ h := by cases h
  request _ _ _ _ h := by cases h
  reply _ _ _ _ h := by cases h
  replyTerm _ _ _ _ h := by cases h
  tally _ h := by cases h
  led _ _ _ h := by cases h
  elected _ _ _ h := by cases h

theorem VoteInv.reach {guard : Cluster Id Addr Cmd → Action Id Cmd → Prop}
    (h : (raft W Cmd).Reach guard s) : VoteInv W s :=
  h.invariant .init fun _ _ _ _ hi _ hs => hi.step hs

end DistSync.Raft
