import DistSync.Raft.Campaign
import DistSync.Raft.CommitIndex

/-! How an entry can be committed. The heartbeats of a leader whose term is not below any other
bring its peers up to its log one after the other, and the last one lets it commit. Only those that
are up need take part, as long as they are a quorum. -/
namespace DistSync.Raft
open TermLog RaftNode
variable {Id Addr Cmd : Type}
variable {W : Wiring Id Addr} {s t : Cluster Id Addr Cmd} {up : Finset Id}

/-- A leader has its heartbeat loop, or will start it when its `no_op` proposal returns. -/
def RaftNode.Beats (x : RaftNode Id Addr Cmd) : Prop :=
  x.state = .leader → x.heartbeatTask.isSome ∨ ∃ c ∈ x.calls, c.caller = .becomeLeader

section Beats
variable {x y : RaftNode Id Addr Cmd}

theorem RaftNode.Beats.of_not_leader (h : x.state ≠ .leader) : x.Beats := fun hx => absurd hx h

theorem RaftNode.Beats.of_same (h : x.Beats) (hs : y.state = .leader → x.state = .leader)
    (hb : y.heartbeatTask = x.heartbeatTask) (hc : y.calls = x.calls) : y.Beats := by
  intro hy
  rw [hb, hc]
  exact h (hs hy)

theorem RaftNode.Beats.propose (h : x.Beats) (command : Command Id Cmd) (caller : Caller) :
    (x.propose command caller).Beats := by
  by_cases hx : x.state = .leader
  · rw [propose_of_leader _ hx]
    intro _
    refine (h hx).imp_right fun hc => ?_
    obtain ⟨c, hc, hcaller⟩ := hc
    exact ⟨c, List.mem_append_left _ hc, hcaller⟩
  · rwa [propose_of_not_leader _ hx]

variable [DecidableEq Addr]

theorem beats_becomeLeader (x : RaftNode Id Addr Cmd) : x.becomeLeader.Beats :=
  fun _ => .inr ⟨_, List.mem_append_right _ (List.mem_singleton_self _), rfl⟩

theorem RaftNode.Beats.advanceCommitIndex (h : x.Beats) : x.advanceCommitIndex.Beats := by
  cases advanceCommitIndex_cases x with
  | inl he => rwa [he]
  | inr hi =>
    obtain ⟨i, -, he⟩ := hi
    rw [he]
    intro hx
    refine (h hx).imp_right fun hc => ?_
    obtain ⟨c, hc, hcaller⟩ := hc
    refine ⟨_, List.mem_map_of_mem hc, ?_⟩
    split <;> exact hcaller

omit [DecidableEq Addr] in
theorem RaftNode.Beats.finishPropose (h : x.Beats) {c : ProposeCall Id Cmd} {k : Nat}
    (hk : x.calls[k]? = some c) : (x.finishPropose c k).Beats := by
  rcases finishPropose_cases x c k with ⟨-, he⟩ | ⟨hc, he⟩
  · rw [he]
    exact fun _ => .inl rfl
  · rw [he]
    intro hx
    refine (h hx).imp_right fun hd => ?_
    obtain ⟨d, hd, hcaller⟩ := hd
    obtain ⟨i, hi⟩ := List.mem_iff_getElem?.mp hd
    refine ⟨d, List.mem_eraseIdx_iff_getElem?.mpr ⟨i, ?_, hi⟩, hcaller⟩
    rintro rfl
    cases hi.symm.trans hk
    cases hcaller.symm.trans hc

variable [DecidableEq Id]

theorem RaftNode.Beats.handleVoteResponse (h : x.Beats) (resp : VoteResponse Id) :
    (x.handleVoteResponse resp).Beats := by
  rcases handleVoteResponse_cases x resp with he | ⟨-, -, he⟩ | ⟨hx, -, -, he | ⟨-, he⟩⟩
  · rwa [he]
  · rw [he]
    exact .of_not_leader (by simp [becomeFollower])
  · rw [he]
    exact h.of_same id rfl rfl
  · rw [he]
    exact beats_becomeLeader _

omit [DecidableEq Addr] in
theorem RaftNode.Beats.handleVoteRequest (h : x.Beats) (req : VoteRequest Id) :
    (x.handleVoteRequest req).1.Beats := by
  obtain ⟨T, vote, state, hb, ⟨-, rfl, rfl⟩ | ⟨-, -, rfl, -⟩, he⟩ := handleVoteRequest_frame x req
  · rw [he]
    exact h.of_same id rfl rfl
  · rw [he]
    exact .of_not_leader (by simp)

omit [DecidableEq Addr] [DecidableEq Id] in
theorem RaftNode.Beats.handleAppendEntries (h : x.Beats) (req : AppendRequest Id Cmd) :
    (x.handleAppendEntries req).1.Beats := by
  cases Nat.lt_or_ge req.term x.currentTerm with
  | inl hT => rwa [handleAppendEntries_old _ hT]
  | inr hT =>
    obtain ⟨log, commit, ok, -, he⟩ := handleAppendEntries_cases x hT
    rw [he]
    exact .of_not_leader (by simp [becomeFollower])

omit [DecidableEq Id] in
theorem RaftNode.Beats.handleAppendEntriesResponse (h : x.Beats) (peer : Addr)
    (resp : AppendResponse) (sent next : Nat) :
    (x.handleAppendEntriesResponse peer resp sent next).Beats := by
  rcases handleAppendEntriesResponse_cases x peer resp sent next with
    ⟨-, he⟩ | he | ⟨-, -, -, he⟩ | ⟨-, -, -, he⟩ <;> rw [he]
  · exact .of_not_leader (by simp [becomeFollower])
  · exact h
  · exact RaftNode.Beats.advanceCommitIndex (h.of_same id rfl rfl)
  · exact h.of_same id rfl rfl

end Beats

variable [DecidableEq Id] [DecidableEq Addr]

theorem beats_step {a : Action Id Cmd} (hs : (raft W Cmd).step s a = some t)
    (h : ∀ n, (s.nodes n).Beats) (n : Id) : (t.nodes n).Beats := by
  have hsame {m : Id} {y : RaftNode Id Addr Cmd} {net : List (Rpc Id Addr Cmd)}
      {evs : List (Event Id Cmd)} (hy : y.Beats) : ((s.move m y net evs).nodes n).Beats :=
    move_nodes (P := fun _ => Beats) h hy n
  cases step_cases hs with
  | election m hx =>
    refine hsame ?_
    by_cases hp : (s.nodes m).peers = []
    · rw [startElection_alone _ hp]
      exact beats_becomeLeader _
    · rw [startElection_of_peers _ hp]
      exact .of_not_leader (by simp [campaign])
  | heartbeatEnds m hx => exact hsame (.of_not_leader hx)
  | voteRequest k src peer req dst hk hd => exact hsame ((h dst).handleVoteRequest req)
  | voteResponse k src peer req resp hk => exact hsame ((h src).handleVoteResponse resp)
  | appendRequest k src origin peer req nextIdx dst hk hd =>
    exact hsame ((h dst).handleAppendEntries req)
  | appendResponse k src origin peer req nextIdx resp hk ha =>
    exact hsame ((h src).handleAppendEntriesResponse _ _ _ _)
  | propose m command => exact hsame ((h m).propose _ _)
  | finish m k c hk => exact hsame ((h m).finishPropose hk)
  | _ => exact hsame ((h _).of_same id rfl rfl)

theorem beats_reach {guard : Cluster Id Addr Cmd → Action Id Cmd → Prop}
    (h : (raft W Cmd).Reach guard s) (n : Id) : (s.nodes n).Beats :=
  h.invariant (I := fun s => ∀ n, (s.nodes n).Beats) (fun _ => .of_not_leader (by simp [raft]))
    (fun _ _ _ _ hi _ hs => beats_step hs hi) n

section Steps
variable {k : Nat} {src dst n : Id} {origin : Origin} {peer : Addr} {req : AppendRequest Id Cmd}
  {nextIdx : Nat}

theorem step_heartbeat {loop : Nat} (hb : (s.nodes n).heartbeatTask = some loop)
    (hx : (s.nodes n).state = .leader) : (raft W Cmd).step s (.heartbeat n) =
      some (s.move n { s.nodes n with
        tasks := (s.nodes n).tasks ++ (s.nodes n).replicateToAll (.heartbeat loop) } s.net []) := by
  simp only [raft, Cluster.step, Cluster.heartbeat, hb, Option.map_some, if_pos hx]

theorem step_send (hk : (s.nodes n).tasks[k]? = some (.replicateToPeer origin peer))
    (ha : origin.alive (s.nodes n) = true) : (raft W Cmd).step s (.runTask n k) =
      some (s.move n { s.nodes n with tasks := (s.nodes n).tasks.eraseIdx k }
        (s.net ++ [.append n origin peer ((s.nodes n).appendRequest peer)
          ((s.nodes n).nextIndexOf peer) none])
        [.sentAppend n (s.nodes n).state (s.nodes n).currentTerm
          ((s.nodes n).appendRequest peer)]) := by
  simp only [raft, Cluster.step, Cluster.runTask, hk, Option.map_some, if_pos ha]

theorem step_appendRequest (hk : s.net[k]? = some (.append src origin peer req nextIdx none))
    (hd : W.route peer = some dst) : (raft W Cmd).step s (.deliver k) =
      some (s.move dst ((s.nodes dst).handleAppendEntries req).1
        (s.net.set k
          (.append src origin peer req nextIdx (some ((s.nodes dst).handleAppendEntries req).2)))
        (if ((s.nodes dst).handleAppendEntries req).2.success then
          [.accepted dst req.term (req.prevLogIndex + req.entries.length)] else [])) := by
  simp only [raft, Cluster.step, Cluster.deliver, hk, Option.bind_some, hd, Option.map_some]

theorem step_appendResponse {resp : AppendResponse}
    (hk : s.net[k]? = some (.append src origin peer req nextIdx (some resp)))
    (ha : origin.alive (s.nodes src) = true) : (raft W Cmd).step s (.deliver k) =
      some (s.move src
        ((s.nodes src).handleAppendEntriesResponse peer resp req.entries.length nextIdx)
        (s.net.eraseIdx k)
        [.gotResponse src (s.nodes src).state (s.nodes src).currentTerm req resp]) := by
  simp only [raft, Cluster.step, Cluster.deliver, hk, Option.bind_some, if_pos ha]

omit [DecidableEq Addr] in
theorem quietStep_heartbeat (hn : n ∈ up) : QuietStep W up s (.heartbeat n) :=
  ⟨⟨⟨nofun, nofun, nofun⟩, among_of_actor rfl hn⟩, trivial⟩

omit [DecidableEq Addr] in
theorem survivorStep_finishPropose (hn : n ∈ up) : SurvivorStep W up s (.finishPropose n k) :=
  ⟨⟨nofun, nofun, nofun⟩, among_of_actor rfl hn⟩

omit [DecidableEq Addr] in
theorem survivorStep_applyNext (hn : n ∈ up) : SurvivorStep W up s (.applyNext n) :=
  ⟨⟨nofun, nofun, nofun⟩, among_of_actor rfl hn⟩

omit [DecidableEq Addr] in
theorem quietStep_send {loop : Nat} (hn : n ∈ up)
    (hk : (s.nodes n).tasks[k]? = some (.replicateToPeer (.heartbeat loop) peer)) :
    QuietStep W up s (.runTask n k) := by
  refine ⟨⟨⟨nofun, fun d hmem hprop => ?_, nofun⟩, among_of_actor rfl hn⟩, trivial⟩
  simp only [sendAt, hk, Option.mem_def, Option.some.injEq] at hmem
  subst hmem
  cases hprop

omit [DecidableEq Addr] in
theorem quietStep_appendRequest (hk : s.net[k]? = some (.append src origin peer req nextIdx none))
    (hd : W.route peer = some dst) (hup : dst ∈ up) : QuietStep W up s (.deliver k) := by
  refine quietStep_deliver (fun d hmem => ?_) (fun d hmem => ?_) (by simp only [actor, hk, hd]) hup
  · simp only [voteRequestAt, hk, Option.mem_def, reduceCtorEq] at hmem
  · simp only [successAt, hk, Option.mem_def, reduceCtorEq] at hmem

omit [DecidableEq Addr] in
theorem quietStep_appendResponse {resp : AppendResponse}
    (hk : s.net[k]? = some (.append src origin peer req nextIdx (some resp)))
    (hup : src ∈ up) (ht : req.term = (s.nodes src).currentTerm) :
    QuietStep W up s (.deliver k) := by
  refine quietStep_deliver (fun d hmem => ?_) (fun d hmem hx => ?_) (by simp only [actor, hk]) hup
  · simp only [voteRequestAt, hk, Option.mem_def, reduceCtorEq] at hmem
  · simp only [successAt, hk, Option.mem_def] at hmem
    obtain ⟨-, he⟩ := Option.ite_none_right_eq_some.mp hmem
    cases he
    exact ht

end Steps

/-- Node `n` is up and leader, and no term of those that are up is above its own. -/
structure Presides (W : Wiring Id Addr) (up : Finset Id) (n : Id) (s : Cluster Id Addr Cmd) :
    Prop where
  mem : n ∈ up
  reach : (raft W Cmd).Reachable s
  leader : (s.nodes n).state = .leader
  highest : ∀ v ∈ up, (s.nodes v).currentTerm ≤ (s.nodes n).currentTerm

def RaftNode.Promised (x : RaftNode Id Addr Cmd) (i future : Nat) : Prop :=
  ∃ c ∈ x.calls, c.future = future ∧
    (c.resolved = true ∨ x.pendingCommits.get? i = some future ∧ x.commitIndex < i)

/-- The leader `x` has become `y`, with the same term, log and loop and no peer further behind; it
has applied nothing and broken no promise. -/
structure Continues (x y : RaftNode Id Addr Cmd) : Prop where
  state : y.state = x.state
  currentTerm : y.currentTerm = x.currentTerm
  log : y.log = x.log
  heartbeatTask : y.heartbeatTask = x.heartbeatTask
  lastApplied : y.lastApplied = x.lastApplied
  matches_le : ∀ q, x.matchIndexOf q ≤ y.matchIndexOf q
  promised : ∀ i future, x.Promised i future → y.Promised i future

omit [DecidableEq Id] [DecidableEq Addr] in
theorem RaftNode.Promised.resolvePending {x : RaftNode Id Addr Cmd} {i future : Nat}
    (h : x.Promised i future) (idx : Nat) :
    ({ x with commitIndex := idx }.resolvePending idx).Promised i future := by
  obtain ⟨c, hc, rfl, hr⟩ := h
  let popped := (x.pendingCommits.filterKeys (· ≤ idx)).entries.map Prod.snd
  have hmem : (if c.future ∈ popped then { c with resolved := true } else c) ∈
      ({ x with commitIndex := idx }.resolvePending idx).calls := List.mem_map_of_mem hc
  refine ⟨_, hmem, by split <;> rfl, ?_⟩
  by_cases hpop : c.future ∈ popped
  · exact .inl (by rw [if_pos hpop])
  · rw [if_neg hpop]
    refine hr.imp_right fun hp => ?_
    have hlt : idx < i := by
      refine not_le.mp fun hle => hpop (List.mem_map.mpr ⟨(i, c.future), ?_, rfl⟩)
      rw [← Dict.get?_eq_some, Dict.get?_filterKeys, if_pos (decide_eq_true hle)]
      exact hp.1
    refine ⟨?_, hlt⟩
    rw [RaftNode.resolvePending, Dict.get?_filterKeys, if_pos (by simpa using hlt)]
    exact hp.1

namespace Continues
variable {x y z : RaftNode Id Addr Cmd}
omit [DecidableEq Id]

theorem refl (x : RaftNode Id Addr Cmd) : Continues x x :=
  ⟨rfl, rfl, rfl, rfl, rfl, fun _ => le_rfl, fun _ _ => id⟩

theorem trans (h : Continues x y) (h' : Continues y z) : Continues x z where
  state := h'.state.trans h.state
  currentTerm := h'.currentTerm.trans h.currentTerm
  log := h'.log.trans h.log
  heartbeatTask := h'.heartbeatTask.trans h.heartbeatTask
  lastApplied := h'.lastApplied.trans h.lastApplied
  matches_le q := (h.matches_le q).trans (h'.matches_le q)
  promised i future hx := h'.promised i future (h.promised i future hx)

theorem advanceCommitIndex (x : RaftNode Id Addr Cmd) : Continues x x.advanceCommitIndex := by
  cases advanceCommitIndex_cases x with
  | inl he =>
    rw [he]
    exact refl x
  | inr hi =>
    obtain ⟨i, -, he⟩ := hi
    rw [he]
    exact ⟨rfl, rfl, rfl, rfl, rfl, fun _ => le_rfl, fun _ _ hx => hx.resolvePending i⟩

theorem recordMatch (x : RaftNode Id Addr Cmd) (peer : Addr) (newMatch : Nat) :
    Continues x (x.recordMatch peer newMatch) := by
  refine ⟨rfl, rfl, rfl, rfl, rfl, fun q => ?_, fun _ _ => id⟩
  unfold RaftNode.recordMatch matchIndexOf
  rw [Dict.get?_set]
  split
  · rename_i he
    subst he
    exact le_max_left _ _
  · exact le_rfl

end Continues

omit [DecidableEq Id] in
theorem handleAppendEntriesResponse_of_leader {x : RaftNode Id Addr Cmd} {resp : AppendResponse}
    (hx : x.state = .leader) (ht : resp.term = x.currentTerm) (peer : Addr) (sent next : Nat) :
    x.handleAppendEntriesResponse peer resp sent next = if resp.success then
      (x.recordMatch peer (next - 1 + sent)).advanceCommitIndex
    else { x with nextIndex := x.nextIndex.set peer (max 1 (x.nextIndexOf peer - 1)) } := by
  unfold handleAppendEntriesResponse
  rw [if_neg ht.le.not_gt, if_neg (not_not.mpr hx)]
  rfl

theorem leads_exchange {n d : Id} {p : Addr} {loop : Nat} (h : Presides W up n s)
    (hb : (s.nodes n).heartbeatTask = some loop) (hp : p ∈ W.peers n) (hd : W.route p = some d)
    (hup : d ∈ up) (hdn : d ≠ n) :
    ∃ t x tasks, x = { s.nodes n with tasks := tasks } ∧ (raft W Cmd).Leads (QuietStep W up) s t ∧
      t.nodes d = ((s.nodes d).handleAppendEntries (x.appendRequest p)).1 ∧
      t.nodes n = x.handleAppendEntriesResponse p
        ((s.nodes d).handleAppendEntries (x.appendRequest p)).2
        (x.appendRequest p).entries.length (x.nextIndexOf p) ∧
      ∀ v, v ≠ d → v ≠ n → t.nodes v = s.nodes v := by
  have hpeers : (s.nodes n).peers = W.peers n := (VoteInv.reach h.reach).peers n
  have htask : .replicateToPeer (.heartbeat loop) p ∈
      (s.nodes n).tasks ++ (s.nodes n).replicateToAll (.heartbeat loop) :=
    List.mem_append_right _ (List.mem_map_of_mem (hpeers ▸ hp))
  obtain ⟨k, hk⟩ := List.mem_iff_getElem?.mp htask
  have hbeat := step_heartbeat (W := W) hb h.leader
  generalize hu : s.move n _ _ _ = u at hbeat
  have hun : u.nodes n = { s.nodes n with
      tasks := (s.nodes n).tasks ++ (s.nodes n).replicateToAll (.heartbeat loop) } := by
    rw [← hu, move_self]
  have hother (v : Id) (hv : v ≠ n) : u.nodes v = s.nodes v := by rw [← hu, move_of_ne _ _ _ _ hv]
  have hk' : (u.nodes n).tasks[k]? = some (.replicateToPeer (.heartbeat loop) p) := by rwa [hun]
  have halive : Origin.alive (u.nodes n) (.heartbeat loop) = true := by
    rw [hun]
    exact decide_eq_true hb
  have hsend := step_send (W := W) hk' halive
  have hreq : (u.nodes n).appendRequest p = (s.nodes n).appendRequest p := by
    rw [hun]
    rfl
  have hnext : (u.nodes n).nextIndexOf p = (s.nodes n).nextIndexOf p := by
    rw [hun]
    rfl
  rw [hreq, hnext] at hsend
  generalize hv : u.move n _ _ _ = v at hsend
  have hkreq : v.net[u.net.length]? = some (.append n (.heartbeat loop) p
      ((s.nodes n).appendRequest p) ((s.nodes n).nextIndexOf p) none) := by
    rw [← hv, move_net, List.getElem?_concat_length]
  have hvd : v.nodes d = s.nodes d := by
    rw [← hv, move_of_ne _ _ _ _ hdn, hother d hdn]
  have hask := step_appendRequest hkreq hd
  rw [hvd] at hask
  generalize hw : v.move d _ _ _ = w at hask
  have hkresp : w.net[u.net.length]? = some (.append n (.heartbeat loop) p
      ((s.nodes n).appendRequest p) ((s.nodes n).nextIndexOf p)
      (some ((s.nodes d).handleAppendEntries ((s.nodes n).appendRequest p)).2)) := by
    have hlt := (List.getElem?_eq_some_iff.mp hkreq).1
    rw [← hw, move_net, List.getElem?_set_self hlt]
  have hwn : w.nodes n = { u.nodes n with tasks := (u.nodes n).tasks.eraseIdx k } := by
    rw [← hw, move_of_ne _ _ _ _ hdn.symm, ← hv, move_self]
  have halive' : Origin.alive (w.nodes n) (.heartbeat loop) = true := by
    rw [hwn]
    exact halive
  have hterm : ((s.nodes n).appendRequest p).term = (w.nodes n).currentTerm := by
    rw [hwn, hun]
    rfl
  refine ⟨_, _, (u.nodes n).tasks.eraseIdx k, rfl,
    (((System.Leads.of_step (quietStep_heartbeat h.mem) hbeat).tail
      ⟨_, quietStep_send h.mem hk', hsend⟩).tail
      ⟨_, quietStep_appendRequest hkreq hd hup, hask⟩).tail
      ⟨_, quietStep_appendResponse hkresp h.mem hterm, step_appendResponse hkresp halive'⟩,
    ?_, ?_, ?_⟩
  · rw [move_of_ne _ _ _ _ hdn, ← hw, move_self]
    rfl
  · rw [move_self, hwn, hun]
    rfl
  · intro q hqd hqn
    rw [move_of_ne _ _ _ _ hqn, ← hw, move_of_ne _ _ _ _ hqd, ← hv, move_of_ne _ _ _ _ hqn,
      hother q hqn]

omit [DecidableEq Id] in
/-- After a response the leader goes on with the peer at its log's end and all committed that can
be, or with the next request one entry earlier; a request that begins with the log succeeds. -/
theorem continues_handleAppendEntriesResponse {x : RaftNode Id Addr Cmd} (hx : x.state = .leader)
    (p : Addr) {ok : Bool} (hok : ok = false → 0 < (x.appendRequest p).prevLogIndex) :
    Continues x (x.handleAppendEntriesResponse p ⟨x.currentTerm, ok⟩
        (x.appendRequest p).entries.length (x.nextIndexOf p)) ∧
      (x.log.length ≤ (x.handleAppendEntriesResponse p ⟨x.currentTerm, ok⟩
          (x.appendRequest p).entries.length (x.nextIndexOf p)).matchIndexOf p ∧
        (x.handleAppendEntriesResponse p ⟨x.currentTerm, ok⟩
          (x.appendRequest p).entries.length (x.nextIndexOf p)).CommitsAll ∨
      (x.handleAppendEntriesResponse p ⟨x.currentTerm, ok⟩
        (x.appendRequest p).entries.length (x.nextIndexOf p)).nextIndexOf p < x.nextIndexOf p) := by
  rw [handleAppendEntriesResponse_of_leader hx rfl]
  cases ok with
  | true =>
    rw [if_pos rfl]
    have hrecord := Continues.recordMatch x p
      (x.nextIndexOf p - 1 + (x.appendRequest p).entries.length)
    have hadvance := Continues.advanceCommitIndex (x.recordMatch p
      (x.nextIndexOf p - 1 + (x.appendRequest p).entries.length))
    refine ⟨hrecord.trans hadvance, .inl ⟨?_, commitsAll_advanceCommitIndex _⟩⟩
    refine le_trans ?_ (hadvance.matches_le p)
    have hsent : (x.appendRequest p).entries.length = x.log.length - (x.nextIndexOf p - 1) :=
      List.length_drop
    simp only [RaftNode.recordMatch, matchIndexOf, Dict.get?_set_self, Option.getD_some]
    omega
  | false =>
    have hpos : 0 < x.nextIndexOf p - 1 := hok rfl
    rw [if_neg Bool.false_ne_true]
    refine ⟨⟨rfl, rfl, rfl, rfl, rfl, fun _ => le_rfl, fun _ _ => id⟩, .inr ?_⟩
    have hset : ({ x with nextIndex := x.nextIndex.set p (max 1 (x.nextIndexOf p - 1)) } :
        RaftNode Id Addr Cmd).nextIndexOf p = max 1 (x.nextIndexOf p - 1) := by
      simp [nextIndexOf]
    omega

omit [DecidableEq Id] [DecidableEq Addr] in
theorem RaftNode.AppendOutcome.prevLogIndex_pos {x : RaftNode Id Addr Cmd}
    {req : AppendRequest Id Cmd} {log : List (LogEntry Id Cmd)} {commit : Nat} {ok : Bool}
    (h : x.AppendOutcome req log commit ok) (hok : ok = false) : 0 < req.prevLogIndex := by
  cases h with
  | short hs => omega
  | mismatch hp hl ht => exact hp
  | success hl ht => cases hok

theorem leads_round {n d : Id} {p : Addr} {loop : Nat} (h : Presides W up n s)
    (hb : (s.nodes n).heartbeatTask = some loop) (hp : p ∈ W.peers n) (hd : W.route p = some d)
    (hup : d ∈ up) (hdn : d ≠ n) :
    ∃ t, (raft W Cmd).Leads (QuietStep W up) s t ∧ Presides W up n t ∧
      Continues (s.nodes n) (t.nodes n) ∧
      ((s.nodes n).log.length ≤ (t.nodes n).matchIndexOf p ∧ (t.nodes n).CommitsAll ∨
        (t.nodes n).nextIndexOf p < (s.nodes n).nextIndexOf p) := by
  obtain ⟨t, x, tasks, hx, hl, htd, htn, hother⟩ := leads_exchange h hb hp hd hup hdn
  have hterm : x.currentTerm = (s.nodes n).currentTerm := by rw [hx]
  have hhigh : (s.nodes d).currentTerm ≤ (x.appendRequest p).term :=
    (h.highest d hup).trans hterm.ge
  obtain ⟨log, commit, ok, hout, he⟩ := handleAppendEntries_cases (s.nodes d) hhigh
  rw [he] at htd htn
  have hnode : Continues (s.nodes n) (t.nodes n) ∧
      ((s.nodes n).log.length ≤ (t.nodes n).matchIndexOf p ∧ (t.nodes n).CommitsAll ∨
        (t.nodes n).nextIndexOf p < (s.nodes n).nextIndexOf p) := by
    have hlead : x.state = .leader := by rw [hx, h.leader]
    have hcont := continues_handleAppendEntriesResponse hlead p hout.prevLogIndex_pos
    have htn : t.nodes n = x.handleAppendEntriesResponse p ⟨x.currentTerm, ok⟩
      (x.appendRequest p).entries.length (x.nextIndexOf p) := htn
    rw [← htn] at hcont
    have hstart : Continues (s.nodes n) x := by
      rw [hx]
      exact ⟨rfl, rfl, rfl, rfl, rfl, fun _ => le_rfl, fun _ _ => id⟩
    have hnext : x.nextIndexOf p = (s.nodes n).nextIndexOf p := by
      rw [hx]
      rfl
    rw [hstart.log, hnext] at hcont
    exact ⟨hstart.trans hcont.1, hcont.2⟩
  refine ⟨t, hl, ⟨h.mem, hl.reachable h.reach, hnode.1.state.trans h.leader, fun v hv => ?_⟩,
    hnode⟩
  rw [hnode.1.currentTerm]
  by_cases hvd : v = d
  · rw [hvd, htd, ← hterm]
    rfl
  · by_cases hvn : v = n
    · rw [hvn, hnode.1.currentTerm]
    · rw [hother v hvd hvn]
      exact h.highest v hv

/-- Rounds with one peer end with the peer at the end of the leader's log. -/
theorem leads_catchUp {n d : Id} {p : Addr} {loop : Nat} (h : Presides W up n s)
    (hb : (s.nodes n).heartbeatTask = some loop) (hp : p ∈ W.peers n) (hd : W.route p = some d)
    (hup : d ∈ up) (hdn : d ≠ n) :
    ∃ t, (raft W Cmd).Leads (QuietStep W up) s t ∧ Presides W up n t ∧
      Continues (s.nodes n) (t.nodes n) ∧
      (s.nodes n).log.length ≤ (t.nodes n).matchIndexOf p ∧ (t.nodes n).CommitsAll := by
  refine System.Leads.descend (P := fun t => Presides W up n t ∧ Continues (s.nodes n) (t.nodes n))
    (Q := fun t => Presides W up n t ∧ Continues (s.nodes n) (t.nodes n) ∧
      (s.nodes n).log.length ≤ (t.nodes n).matchIndexOf p ∧ (t.nodes n).CommitsAll)
    (fun t => (t.nodes n).nextIndexOf p) (fun t ht => ?_) ⟨h, .refl _⟩
  obtain ⟨hpres, hcont⟩ := ht
  obtain ⟨u, htu, hu, hcont', hround⟩ :=
    leads_round hpres (hcont.heartbeatTask.trans hb) hp hd hup hdn
  rw [hcont.log] at hround
  refine ⟨u, htu, hround.imp (fun hdone => ?_) fun hless => ?_⟩
  · exact ⟨hu, hcont.trans hcont', hdone⟩
  · exact ⟨⟨hu, hcont.trans hcont'⟩, hless⟩

def Wiring.others (W : Wiring Id Addr) (up : Finset Id) (n : Id) : List Addr :=
  (W.peers n).filter fun p => (W.route p).any (· ∈ up.erase n)

omit [DecidableEq Addr] in
theorem Wiring.mem_others {n : Id} {p : Addr} :
    p ∈ W.others up n ↔ p ∈ W.peers n ∧ ∃ d ∈ up, d ≠ n ∧ W.route p = some d := by
  simp only [Wiring.others, List.mem_filter, Option.any_eq_true, decide_eq_true_eq,
    Finset.mem_erase]
  refine and_congr_right fun _ => exists_congr fun d => ?_
  tauto

omit [DecidableEq Addr] in
theorem Wiring.Complete.card_le_others (hW : W.Complete) (up : Finset Id) (n : Id) :
    up.card ≤ 1 + (W.others up n).length := by
  have hsub : up ⊆ insert n (W.listeners (W.others up n)) := by
    intro v hv
    by_cases hvn : v = n
    · exact hvn ▸ Finset.mem_insert_self ..
    · obtain ⟨p, hp, hr⟩ := hW.reached n v hvn
      exact Finset.mem_insert_of_mem
        (Wiring.mem_listeners.mpr ⟨p, Wiring.mem_others.mpr ⟨hp, v, hv, hvn, hr⟩, hr⟩)
  have hle := (Finset.card_le_card hsub).trans (Finset.card_insert_le n _)
  have hsublist : (W.others up n).Sublist (W.peers n) := List.filter_sublist
  have hcard := hW.card_listeners hsublist
  omega

theorem quorum_le_replicas (hW : W.Complete) {n : Id} {x : RaftNode Id Addr Cmd} {idx : Nat}
    (hq : ((W.peers n).length + 1) / 2 + 1 ≤ up.card) (hp : x.peers = W.peers n)
    (hall : ∀ p ∈ W.others up n, idx ≤ x.matchIndexOf p) : x.quorum ≤ x.replicas idx := by
  have hcount : (W.others up n).length ≤ (W.peers n).countP fun p => x.matchIndexOf p ≥ idx := by
    rw [Wiring.others, ← List.countP_eq_length_filter]
    refine List.countP_mono_left fun p hmem hpn => decide_eq_true (hall p ?_)
    exact List.mem_filter.mpr ⟨hmem, hpn⟩
  have hup := hW.card_le_others up n
  rw [quorum, replicas, hp]
  omega

/-- The leader `x` has gone on; its peers that are up, outside `todo`, have its log, and if there
are any it has committed what it could. -/
structure CatchingUp (W : Wiring Id Addr) (up : Finset Id) (n : Id) (x : RaftNode Id Addr Cmd)
    (todo : List Addr) (s : Cluster Id Addr Cmd) : Prop where
  presides : Presides W up n s
  continues : Continues x (s.nodes n)
  sublist : todo.Sublist (W.others up n)
  matched : ∀ p ∈ W.others up n, p ∈ todo ∨ x.log.length ≤ (s.nodes n).matchIndexOf p
  commits : (W.others up n).length ≤ todo.length ∨ (s.nodes n).CommitsAll

/-- A leader whose term is not below any other can commit its whole log, if it ends in its term. -/
theorem leads_committed (hW : W.Complete) {n m : Id} {loop : Nat}
    (hq : ((W.peers n).length + 1) / 2 + 1 ≤ up.card) (hmem : m ∈ up) (hm : m ≠ n)
    (h : Presides W up n s) (hb : (s.nodes n).heartbeatTask = some loop)
    (hlast : (s.nodes n).log[(s.nodes n).log.length - 1]?.map LogEntry.term =
      some (s.nodes n).currentTerm) :
    ∃ t, (raft W Cmd).Leads (QuietStep W up) s t ∧ Presides W up n t ∧
      Continues (s.nodes n) (t.nodes n) ∧ (s.nodes n).log.length ≤ (t.nodes n).commitIndex := by
  obtain ⟨t, hl, ht⟩ := System.Leads.through (P := CatchingUp W up n (s.nodes n))
    (fun p todo t ht => by
      obtain ⟨hpeer, d, hd, hdn, hroute⟩ :=
        Wiring.mem_others.mp (ht.sublist.subset List.mem_cons_self)
      obtain ⟨u, htu, hu, hcont, hmatch, hcommits⟩ := leads_catchUp ht.presides
        (ht.continues.heartbeatTask.trans hb) hpeer hroute hd hdn
      refine ⟨u, htu, hu, ht.continues.trans hcont,
        (List.sublist_cons_self p todo).trans ht.sublist, fun q hq => ?_, .inr hcommits⟩
      cases ht.matched q hq with
      | inl hqmem =>
        cases List.mem_cons.mp hqmem with
        | inl he =>
          rw [he, ← ht.continues.log]
          exact .inr hmatch
        | inr hqmem => exact .inl hqmem
      | inr hqmatch => exact .inr (hqmatch.trans (hcont.matches_le q)))
    (⟨h, .refl _, .refl _, fun p hp => .inl hp, .inl le_rfl⟩ :
      CatchingUp W up n (s.nodes n) (W.others up n) s)
  refine ⟨t, hl, ht.presides, ht.continues, not_lt.mp fun hlt => ?_⟩
  have hcommits : (t.nodes n).CommitsAll := by
    refine ht.commits.resolve_left fun hle => ?_
    obtain ⟨p, hp, hr⟩ := hW.reached n m hm
    have hother : p ∈ W.others up n := Wiring.mem_others.mpr ⟨hp, m, hmem, hm, hr⟩
    rw [List.length_eq_zero_iff.mp (Nat.le_zero.mp hle)] at hother
    cases hother
  refine hcommits ht.presides.leader (s.nodes n).log.length ⟨hlt, ?_, ?_, ?_⟩
  · rw [ht.continues.log]
  · rw [ht.continues.log, ht.continues.currentTerm]
    exact hlast
  · refine quorum_le_replicas hW hq ((VoteInv.reach ht.presides.reach).peers n) fun p hp => ?_
    exact (ht.matched p hp).resolve_left (List.not_mem_nil)

theorem Presides.beating {n : Id} (h : Presides W up n s) : ∃ t loop,
    (t = s ∨ ∃ k, (raft W Cmd).step s (.finishPropose n k) = some t) ∧ Presides W up n t ∧
      (t.nodes n).heartbeatTask = some loop := by
  cases beats_reach h.reach n h.leader with
  | inl hb =>
    obtain ⟨loop, hb⟩ := Option.isSome_iff_exists.mp hb
    exact ⟨s, loop, .inl rfl, h, hb⟩
  | inr hc =>
    obtain ⟨c, hc, hcaller⟩ := hc
    obtain ⟨k, hk⟩ := List.mem_iff_getElem?.mp hc
    have hstep : (raft W Cmd).step s (.finishPropose n k) = some (s.move n
        ((s.nodes n).finishPropose c k) s.net
        [.returned n c.entry c.resolved (s.nodes n).log (s.nodes n).commitIndex]) := by
      simp only [raft, Cluster.step, Cluster.finishPropose, hk, Option.map_some]
    have hfinish : (s.nodes n).finishPropose c k = ((s.nodes n).dropCall c k).startHeartbeat := by
      cases finishPropose_cases (s.nodes n) c k with
      | inl he => exact he.2
      | inr he => cases hcaller.symm.trans he.1
    rw [hfinish] at hstep
    refine ⟨_, (s.nodes n).fresh, .inr ⟨k, hstep⟩, ⟨h.mem, .step h.reach trivial hstep, ?_, ?_⟩, ?_⟩
    · rw [move_self]
      exact h.leader
    · rw [move_self]
      exact move_nodes (P := fun v y => v ∈ up → y.currentTerm ≤ (s.nodes n).currentTerm) h.highest
        fun _ => le_rfl
    · rw [move_self]
      rfl

theorem Presides.propose {n : Id} (h : Presides W up n s) (command : Cmd) :
    Presides W up n (s.propose n command) := by
  have hstep : (raft W Cmd).step s (.propose n command) = some (s.propose n command) := rfl
  have hnode : (s.propose n command).nodes n = (s.nodes n).propose (.client command) .client :=
    move_self ..
  have hprop : (s.nodes n).propose (.client command) .client = _ := propose_of_leader _ h.leader
  refine ⟨h.mem, .step h.reach trivial hstep, by rw [hnode, hprop, h.leader], ?_⟩
  rw [hnode]
  refine move_nodes (P := fun v y => v ∈ up → y.currentTerm ≤ _) (fun v hv => ?_) fun _ => le_rfl
  rw [hprop]
  exact h.highest v hv

omit [DecidableEq Id] [DecidableEq Addr] in
theorem Wiring.Complete.exists_other [Nontrivial Id] (hW : W.Complete) {n : Id}
    (hq : ((W.peers n).length + 1) / 2 + 1 ≤ up.card) : ∃ m ∈ up, m ≠ n := by
  obtain ⟨m, hm⟩ := exists_ne n
  have hpos := List.length_pos_of_ne_nil (hW.peers_ne_nil hm)
  exact Finset.exists_mem_ne (by omega) n

theorem Presides.commits [Nontrivial Id] (hW : W.Complete) {n : Id} {loop : Nat}
    (hq : ((W.peers n).length + 1) / 2 + 1 ≤ up.card) (h : Presides W up n s)
    (hb : (s.nodes n).heartbeatTask = some loop) (command : Cmd) :
    ∃ t, (raft W Cmd).Leads (QuietStep W up) (s.propose n command) t ∧ Presides W up n t ∧
      Continues ((s.nodes n).propose (.client command) .client) (t.nodes n) ∧
      (s.nodes n).log.length < (t.nodes n).commitIndex := by
  obtain ⟨m, hmem, hm⟩ := hW.exists_other hq
  have hnode : (s.propose n command).nodes n = (s.nodes n).propose (.client command) .client :=
    move_self ..
  have hprop : (s.nodes n).propose (.client command) .client = _ := propose_of_leader _ h.leader
  obtain ⟨t, hl, ht, hcont, hcommit⟩ := leads_committed hW hq hmem hm (h.propose command)
    (by rw [hnode, hprop, hb]) (by rw [hnode, hprop]; simp [newEntry])
  rw [hnode] at hcont hcommit
  refine ⟨t, hl, ht, hcont, ?_⟩
  rw [hprop, List.length_append, List.length_singleton] at hcommit
  omega

theorem leads_applied (s : Cluster Id Addr Cmd) {n : Id} (hn : n ∈ up) :
    ∃ t, (raft W Cmd).Leads (SurvivorStep W up) s t ∧ (t.nodes n).log = (s.nodes n).log ∧
      (t.nodes n).commitIndex = (s.nodes n).commitIndex ∧
      (s.nodes n).commitIndex ≤ (t.nodes n).lastApplied := by
  refine System.Leads.descend (P := fun t => (t.nodes n).log = (s.nodes n).log ∧
      (t.nodes n).commitIndex = (s.nodes n).commitIndex)
    (fun t => (t.nodes n).commitIndex - (t.nodes n).lastApplied) (fun t ht => ?_) ⟨rfl, rfl⟩
  obtain ⟨hlog, hcommit⟩ := ht
  cases Nat.lt_or_ge (t.nodes n).lastApplied (t.nodes n).commitIndex with
  | inr hge => exact ⟨t, .refl, .inl ⟨hlog, hcommit, hcommit ▸ hge⟩⟩
  | inl hlt =>
    have hstep : (raft W Cmd).step t (.applyNext n) = t.applyNext n := rfl
    rw [Cluster.applyNext, if_pos hlt] at hstep
    refine ⟨_, .of_step (survivorStep_applyNext hn) hstep, .inr ⟨⟨?_, ?_⟩, ?_⟩⟩
    · rw [move_self]
      exact hlog
    · rw [move_self]
      exact hcommit
    · rw [move_self]
      exact Nat.sub_lt_sub_left hlt (Nat.lt_succ_self _)

/-- The cluster never gets stuck as long as those nodes that are up are a quorum. From every state
that it can reach, whatever was lost, delayed or voted twice before, steps of theirs that keep the
disciplines lead to a leader which, given any command then, can commit it at the end of its log and
apply it. -/
theorem never_stuck [Nontrivial Id] (hW : W.Complete) (hup : up.Nonempty)
    (hq : ∀ n ∈ up, ((W.peers n).length + 1) / 2 + 1 ≤ up.card)
    (hr : (raft W Cmd).Reachable s) (command : Cmd) :
    ∃ t, ∃ n ∈ up, ∃ u, (raft W Cmd).Leads (SurvivorStep W up) s t ∧
      (t.nodes n).state = .leader ∧
      (raft W Cmd).Leads (SurvivorStep W up) (t.propose n command) u ∧
      (u.nodes n).log[(t.nodes n).log.length]?.map LogEntry.command = some (.client command) ∧
      (t.nodes n).log.length < (u.nodes n).commitIndex ∧
      (t.nodes n).log.length < (u.nodes n).lastApplied := by
  obtain ⟨s₁, n, hn, hl, hlead, hhigh⟩ := leads_leader hW hup hq hr
  obtain ⟨t, loop, ht, hpres, hb⟩ :=
    Presides.beating (⟨hn, hl.reachable hr, hlead, hhigh⟩ : Presides W up n s₁)
  obtain ⟨u₁, hu₁, -, hcont, hcommit⟩ := hpres.commits hW (hq n hn) hb command
  obtain ⟨u, hu, hlog, hcommit', happ⟩ := leads_applied (W := W) u₁ hn
  have hst : (raft W Cmd).Leads (SurvivorStep W up) s t := by
    refine (hl.mono fun _ _ ha => ha.toSurvivorStep).trans ?_
    cases ht with
    | inl ht => exact ht ▸ .refl
    | inr ht =>
      obtain ⟨k, hstep⟩ := ht
      exact System.Leads.of_step (survivorStep_finishPropose hn) hstep
  have hlen : ((t.nodes n).propose (.client command) .client).log = (t.nodes n).log ++
      [(t.nodes n).newEntry (.client command)] := by rw [propose_of_leader _ hpres.leader]
  refine ⟨t, n, hn, u, hst, hpres.leader, (hu₁.mono fun _ _ ha => ha.toSurvivorStep).trans hu, ?_,
    by omega, by omega⟩
  rw [hlog, hcont.log, hlen, List.getElem?_concat_length]
  rfl

theorem never_stuck_twoMachines : ∃ s,
    (raft (mesh 3) Nat).run (raft (mesh 3) Nat).init twoMachines = some s ∧
    ∃ t, ∃ n ∈ ({1, 2} : Finset (Fin 3)), ∃ u,
      (raft (mesh 3) Nat).Leads (SurvivorStep (mesh 3) {1, 2}) s t ∧
      (t.nodes n).state = .leader ∧
      (raft (mesh 3) Nat).Leads (SurvivorStep (mesh 3) {1, 2}) (t.propose n 7) u ∧
      (u.nodes n).log[(t.nodes n).log.length]?.map LogEntry.command = some (.client 7) ∧
      (t.nodes n).log.length < (u.nodes n).commitIndex ∧
      (t.nodes n).log.length < (u.nodes n).lastApplied := by
  have hrun : ((raft (mesh 3) Nat).run (raft (mesh 3) Nat).init twoMachines).isSome = true := by
    decide +kernel
  obtain ⟨s, hs⟩ := Option.isSome_iff_exists.mp hrun
  exact ⟨s, hs, never_stuck (mesh_complete 3) (Finset.insert_nonempty ..) (by decide)
    (System.reachable_run hs) 7⟩

end DistSync.Raft
