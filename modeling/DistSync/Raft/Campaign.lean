import Mathlib.Data.Finset.Max
import Mathlib.Data.Prod.Lex
import DistSync.Progress
import DistSync.Raft.StateMachine
import DistSync.Raft.Survivors

/-! How an election can be won. From any state the timers of the nodes that are up, and the delivery
of vote requests and answers among them, can make one of them leader that has no log of theirs
above it, in a term above theirs, as long as they are a quorum. -/
namespace DistSync.Raft
open TermLog RaftNode
variable {Id Addr Cmd : Type} [DecidableEq Id]
variable {W : Wiring Id Addr} {s t : Cluster Id Addr Cmd} {up : Finset Id}

section Steps
variable {k : Nat} {src dst n : Id} {origin : Origin} {peer : Addr} [DecidableEq Addr]

theorem step_electionTimeout (hx : (s.nodes n).state ≠ .leader) (hp : (s.nodes n).peers ≠ []) :
    (raft W Cmd).step s (.electionTimeout n) = some (s.move n (s.nodes n).campaign
      (s.net ++ (s.nodes n).peers.map fun p => .vote n p (s.nodes n).campaign.voteRequest none)
      [.voted n ((s.nodes n).currentTerm + 1) n (s.nodes n).log]) := by
  simp only [raft, Cluster.step, Cluster.electionTimeout, if_neg hx, startElection_of_peers _ hp,
    List.map_map]
  rfl

theorem step_voteRequest {req : VoteRequest Id} (hk : s.net[k]? = some (.vote src peer req none))
    (hd : W.route peer = some dst) : (raft W Cmd).step s (.deliver k) =
      some (s.move dst ((s.nodes dst).handleVoteRequest req).1
        (s.net.set k (.vote src peer req (some ((s.nodes dst).handleVoteRequest req).2)))
        (if ((s.nodes dst).handleVoteRequest req).2.voteGranted then
          [.voted dst req.term req.candidateId (s.nodes dst).log] else [])) := by
  simp only [raft, Cluster.step, Cluster.deliver, hk, Option.bind_some, hd, Option.map_some]

theorem step_voteResponse {req : VoteRequest Id} {resp : VoteResponse Id}
    (hk : s.net[k]? = some (.vote src peer req (some resp))) :
    (raft W Cmd).step s (.deliver k) =
      some (s.move src ((s.nodes src).handleVoteResponse resp) (s.net.eraseIdx k) []) := by
  simp only [raft, Cluster.step, Cluster.deliver, hk, Option.bind_some]

end Steps

structure SurvivorStep (W : Wiring Id Addr) (up : Finset Id) (s : Cluster Id Addr Cmd)
    (a : Action Id Cmd) : Prop where
  safe : SafeStep W s a
  among : Among W up s a

/-- Such a step of a timer, a task or a message: no proposal begins or ends, and nothing is
applied. -/
structure QuietStep (W : Wiring Id Addr) (up : Finset Id) (s : Cluster Id Addr Cmd)
    (a : Action Id Cmd) : Prop extends SurvivorStep W up s a where
  quiet : match a with
    | .propose _ _ | .finishPropose _ _ | .applyNext _ => False
    | _ => True

omit [DecidableEq Id] in
theorem among_of_actor {a : Action Id Cmd} {n : Id} (ha : actor W s a = some n) (hn : n ∈ up) :
    Among W up s a := by
  intro m hm
  cases ha.symm.trans hm
  exact hn

theorem quietStep_deliver {k : Nat} {n : Id} (hv : VotesOnce W s (.deliver k))
    (hc : CountsOwnSuccesses s (.deliver k)) (ha : actor W s (.deliver k : Action Id Cmd) = some n)
    (hn : n ∈ up) : QuietStep W up s (.deliver k) :=
  ⟨⟨⟨hv, nofun, hc⟩, among_of_actor ha hn⟩, trivial⟩

theorem quietStep_voteRequest {k : Nat} {src dst : Id} {peer : Addr} {req : VoteRequest Id}
    (hk : s.net[k]? = some (.vote src peer req none)) (hd : W.route peer = some dst)
    (hup : dst ∈ up) (hlt : (s.nodes dst).currentTerm < req.term) :
    QuietStep W up s (.deliver k) := by
  refine quietStep_deliver (fun d hmem ht => ?_) (fun d hmem => ?_)
    (by simp only [actor, hk, hd]) hup
  · simp only [voteRequestAt, hk, hd, Option.map_some, Option.mem_def, Option.some.injEq] at hmem
    subst hmem
    exact absurd ht hlt.ne'
  · simp only [successAt, hk, Option.mem_def, reduceCtorEq] at hmem

theorem quietStep_voteResponse {k : Nat} {src : Id} {peer : Addr} {req : VoteRequest Id}
    {resp : VoteResponse Id} (hk : s.net[k]? = some (.vote src peer req (some resp)))
    (hup : src ∈ up) : QuietStep W up s (.deliver k) := by
  refine quietStep_deliver (fun d hmem => ?_) (fun d hmem => ?_) (by simp only [actor, hk]) hup
  · simp only [voteRequestAt, hk, Option.mem_def, reduceCtorEq] at hmem
  · simp only [successAt, hk, Option.mem_def, reduceCtorEq] at hmem

theorem quietStep_electionTimeout (s : Cluster Id Addr Cmd) {n : Id} (hn : n ∈ up) :
    QuietStep W up s (.electionTimeout n) :=
  ⟨⟨⟨nofun, nofun, nofun⟩, among_of_actor rfl hn⟩, trivial⟩

variable [DecidableEq Addr]

/-- The vote of a node in a new term: asked, given if the log is up to date, and counted. -/
theorem leads_vote {n m : Id} {peer : Addr} {req : VoteRequest Id}
    {base rest : List (Rpc Id Addr Cmd)}
    (hnet : s.net = base ++ .vote n peer req none :: rest) (hd : W.route peer = some m)
    (hn : n ∈ up) (hm : m ∈ up) (hmn : m ≠ n) (hlt : (s.nodes m).currentTerm < req.term) :
    ∃ t, (raft W Cmd).Leads (QuietStep W up) s t ∧ t.net = base ++ rest ∧
      t.nodes m = ((s.nodes m).handleVoteRequest req).1 ∧
      t.nodes n = (s.nodes n).handleVoteResponse ((s.nodes m).handleVoteRequest req).2 ∧
      ∀ v, v ≠ m → v ≠ n → t.nodes v = s.nodes v := by
  have hk : s.net[base.length]? = some (.vote n peer req none) := by simp [hnet]
  have hask := step_voteRequest hk hd
  generalize hu : s.move m _ _ _ = u at hask
  have hk' : u.net[base.length]? =
      some (.vote n peer req (some ((s.nodes m).handleVoteRequest req).2)) := by
    rw [← hu, move_net, hnet]
    simp
  refine ⟨_, (System.Leads.of_step (quietStep_voteRequest hk hd hm hlt) hask).tail
    ⟨_, quietStep_voteResponse hk' hn, step_voteResponse hk'⟩, ?_, ?_, ?_, ?_⟩
  · rw [move_net, ← hu, move_net, hnet, List.set_append_right _ _ le_rfl, Nat.sub_self,
      List.eraseIdx_append_of_length_le le_rfl, Nat.sub_self]
    rfl
  · rw [move_of_ne _ _ _ _ hmn, ← hu, move_self]
  · rw [move_self, ← hu, move_of_ne _ _ _ _ hmn.symm]
  · intro v hvm hvn
    rw [move_of_ne _ _ _ _ hvn, ← hu, move_of_ne _ _ _ _ hvm]

theorem handleVoteResponse_granted {x : RaftNode Id Addr Cmd} {resp : VoteResponse Id}
    (hx : x.state = .candidate) (hg : resp.voteGranted = true) (ht : resp.term = x.currentTerm) :
    x.handleVoteResponse resp = if x.quorum ≤ (insert resp.voterId x.votesReceived).card then
      (x.recordVote resp.voterId).becomeLeader else x.recordVote resp.voterId := by
  unfold handleVoteResponse
  rw [if_neg (not_not.mpr hx), if_neg ht.le.not_gt, if_pos ⟨hg, ht⟩]
  rfl

omit [DecidableEq Addr] in
theorem handleVoteRequest_follower {x : RaftNode Id Addr Cmd} {req : VoteRequest Id}
    (h : x.currentTerm < req.term) : (x.handleVoteRequest req).1.state = .follower := by
  rw [handleVoteRequest_eq, if_pos h]
  split <;> rfl

/-- Node `n` has been elected in the term of `req`, or is about to be: its requests to `todo` are
on their way to nodes of older terms, which will grant them if they are up, and all others that are
up have voted for it. -/
structure Canvassing (W : Wiring Id Addr) (up : Finset Id) (n : Id) (req : VoteRequest Id)
    (todo : List Addr) (s : Cluster Id Addr Cmd) : Prop where
  mem : n ∈ up
  reach : (raft W Cmd).Reachable s
  asked : ∃ base, s.net = base ++ todo.map fun p => .vote n p req none
  sublist : todo.Sublist (W.peers n)
  term : (s.nodes n).currentTerm = req.term
  others : ∀ m ∈ up, (s.nodes m).currentTerm ≤ req.term
  fresh : ∀ p ∈ todo, ∀ m ∈ up, W.route p = some m → m ≠ n →
    (s.nodes m).currentTerm < req.term ∧ (s.nodes m).logOk req
  tally : (s.nodes n).state = .leader ∨ (s.nodes n).state = .candidate ∧
    (s.nodes n).votesReceived.card < (s.nodes n).quorum ∧
    ∀ m ∈ up, m ∈ (s.nodes n).votesReceived ∨ m ≠ n ∧ ∃ p ∈ todo, W.route p = some m

namespace Canvassing
variable {n : Id} {req : VoteRequest Id} {p : Addr} {todo : List Addr}

theorem skip (h : Canvassing W up n req (p :: todo) s) {m : Id} (hp : W.route p = some m)
    (hm : m = n ∨ m ∉ up) : Canvassing W up n req todo s where
  mem := h.mem
  reach := h.reach
  asked := by
    obtain ⟨base, hb⟩ := h.asked
    exact ⟨base ++ [.vote n p req none], by simp [hb]⟩
  sublist := (List.sublist_cons_self p todo).trans h.sublist
  term := h.term
  others := h.others
  fresh q hq := h.fresh q (List.mem_cons_of_mem p hq)
  tally := by
    refine h.tally.imp_right fun hc =>
      ⟨hc.1, hc.2.1, fun v hv => (hc.2.2 v hv).imp_right fun hx => ?_⟩
    obtain ⟨hne, q, hq, hr⟩ := hx
    cases List.mem_cons.mp hq with
    | inl he =>
      subst he
      cases hr.symm.trans hp
      exact (hm.elim hne fun hdown => hdown hv).elim
    | inr hq => exact ⟨hne, q, hq, hr⟩

theorem ask (hW : W.Complete) (h : Canvassing W up n req (p :: todo) s) {m : Id}
    (hp : W.route p = some m) (hm : m ≠ n) (hup : m ∈ up) :
    ∃ t, (raft W Cmd).Leads (QuietStep W up) s t ∧ Canvassing W up n req todo t := by
  obtain ⟨base, hb⟩ := h.asked
  obtain ⟨hlt, hlog⟩ := h.fresh p List.mem_cons_self m hup hp hm
  obtain ⟨t, hl, hnet, htm, htn, hother⟩ := leads_vote hb hp h.mem hup hm hlt
  obtain ⟨hterm, -, hresp⟩ := handleVoteRequest_of_grants (s.nodes m) ⟨hlog, .inl hlt⟩
  have hnodup := (h.sublist.map W.route).nodup (hW.nodup n)
  rw [List.map_cons, List.nodup_cons] at hnodup
  have hkeep : ∀ q ∈ todo, ∀ v, W.route q = some v → v ≠ m := by
    rintro q hq v hv rfl
    exact hnodup.1 (List.mem_map.mpr ⟨q, hq, hv.trans hp.symm⟩)
  have hvoter : ((s.nodes m).handleVoteRequest req).2.voterId = m := by
    rw [hresp]
    exact (VoteInv.reach h.reach).nodeId m
  have hresponse : (t.nodes n).currentTerm = req.term ∧ ((t.nodes n).state = .leader ∨
      (t.nodes n).state = .candidate ∧ (t.nodes n).votesReceived.card < (t.nodes n).quorum ∧
        ∀ v ∈ up, v ∈ (t.nodes n).votesReceived ∨ v ≠ n ∧ ∃ q ∈ todo, W.route q = some v) := by
    rw [htn]
    cases h.tally with
    | inl hx =>
      have hsame : (s.nodes n).handleVoteResponse ((s.nodes m).handleVoteRequest req).2 =
          s.nodes n := if_pos (by rw [hx]; simp)
      rw [hsame]
      exact ⟨h.term, .inl hx⟩
    | inr hx =>
      rw [handleVoteResponse_granted hx.1 (by rw [hresp]) (by rw [hresp, h.term]), hvoter]
      split
      · exact ⟨h.term, .inl rfl⟩
      · rename_i hq
        refine ⟨h.term, .inr ⟨hx.1, not_le.mp hq, fun v hv => ?_⟩⟩
        rcases hx.2.2 v hv with hv | ⟨hvn, q, hq, hv⟩
        · exact .inl (Finset.mem_insert_of_mem hv)
        · cases List.mem_cons.mp hq with
          | inl he =>
            subst he
            cases hp.symm.trans hv
            exact .inl (Finset.mem_insert_self m _)
          | inr hq => exact .inr ⟨hvn, q, hq, hv⟩
  refine ⟨t, hl, ?_⟩
  exact
    { mem := h.mem
      reach := hl.reachable h.reach
      asked := ⟨base, hnet⟩
      sublist := (List.sublist_cons_self p todo).trans h.sublist
      term := hresponse.1
      others := fun v hv => by
        by_cases hvm : v = m
        · rw [hvm, htm, hterm]
        · by_cases hvn : v = n
          · rw [hvn, hresponse.1]
          · rw [hother v hvm hvn]
            exact h.others v hv
      fresh := fun q hq v hup hv hvn => by
        rw [hother v (hkeep q hq v hv) hvn]
        exact h.fresh q (List.mem_cons_of_mem p hq) v hup hv hvn
      tally := hresponse.2 }

theorem won (h : Canvassing W up n req [] s)
    (hq : ((W.peers n).length + 1) / 2 + 1 ≤ up.card) : (s.nodes n).state = .leader := by
  refine h.tally.resolve_right fun hx => ?_
  have hall : up ⊆ (s.nodes n).votesReceived := by
    intro v hv
    refine (hx.2.2 v hv).resolve_right fun hv => ?_
    obtain ⟨-, q, hq, -⟩ := hv
    cases hq
  have hquorum : (s.nodes n).quorum = ((W.peers n).length + 1) / 2 + 1 := by
    rw [quorum, (VoteInv.reach h.reach).peers]
  have hle := Finset.card_le_card hall
  omega

theorem win (hW : W.Complete) (hq : ((W.peers n).length + 1) / 2 + 1 ≤ up.card)
    (h : Canvassing W up n req todo s) : ∃ t, (raft W Cmd).Leads (QuietStep W up) s t ∧
      (t.nodes n).state = .leader ∧ (t.nodes n).currentTerm = req.term ∧
      ∀ m ∈ up, (t.nodes m).currentTerm ≤ req.term := by
  obtain ⟨t, hl, ht⟩ := System.Leads.through (P := Canvassing W up n req) (fun p todo s h => by
    obtain ⟨m, hp⟩ := hW.peer n p (h.sublist.subset List.mem_cons_self)
    by_cases hm : m = n ∨ m ∉ up
    · exact ⟨s, .refl, h.skip hp hm⟩
    · obtain ⟨hmn, hup⟩ := not_or.mp hm
      exact h.ask hW hp hmn (not_not.mp hup)) h
  exact ⟨t, hl, ht.won hq, ht.term, ht.others⟩

end Canvassing

section Election
variable {n m : Id}

/-- A node that is not leader can time out until its term is as high as one likes. -/
theorem leads_overtake (hr : (raft W Cmd).Reachable s) (hn : n ∈ up)
    (hx : (s.nodes n).state ≠ .leader) (hp : W.peers n ≠ []) (bound : Nat) :
    ∃ t, (raft W Cmd).Leads (QuietStep W up) s t ∧ (t.nodes n).state ≠ .leader ∧
      bound ≤ (t.nodes n).currentTerm ∧ (t.nodes n).log = (s.nodes n).log ∧
      ∀ m, m ≠ n → t.nodes m = s.nodes m := by
  refine System.Leads.descend (P := fun t => (raft W Cmd).Reachable t ∧
      (t.nodes n).state ≠ .leader ∧ (t.nodes n).log = (s.nodes n).log ∧
      ∀ m, m ≠ n → t.nodes m = s.nodes m)
    (fun t => bound - (t.nodes n).currentTerm) (fun t ht => ?_) ⟨hr, hx, rfl, fun _ _ => rfl⟩
  obtain ⟨htr, htx, hlog, hother⟩ := ht
  cases Nat.lt_or_ge (t.nodes n).currentTerm bound with
  | inr hge => exact ⟨t, .refl, .inl ⟨htx, hge, hlog, hother⟩⟩
  | inl hlt =>
    have hpeers : (t.nodes n).peers ≠ [] := by rwa [(VoteInv.reach htr).peers]
    have hstep := step_electionTimeout (W := W) htx hpeers
    refine ⟨_, .of_step (quietStep_electionTimeout t hn) hstep, .inr ⟨⟨?_, ?_, ?_, ?_⟩, ?_⟩⟩
    · exact .step htr trivial hstep
    · rw [move_self]
      simp [campaign]
    · rw [move_self]
      exact hlog
    · intro m hm
      rw [move_of_ne _ _ _ _ hm]
      exact hother m hm
    · rw [move_self]
      exact Nat.sub_lt_sub_left hlt (Nat.lt_succ_self _)

omit [DecidableEq Id] [DecidableEq Addr] in
theorem exists_highest_term (hup : up.Nonempty) (s : Cluster Id Addr Cmd) :
    ∃ top ∈ up, ∀ m ∈ up, (s.nodes m).currentTerm ≤ (s.nodes top).currentTerm :=
  up.exists_max_image (fun m => (s.nodes m).currentTerm) hup

omit [DecidableEq Id] [DecidableEq Addr] in
theorem exists_upToDate (hup : up.Nonempty) (s : Cluster Id Addr Cmd) :
    ∃ n ∈ up, ∀ m ∈ up, UpToDate (s.nodes n).log (s.nodes m).log := by
  obtain ⟨best, hmem, hbest⟩ := up.exists_max_image
    (fun m => toLex (lastTerm LogEntry.term (s.nodes m).log, (s.nodes m).log.length)) hup
  exact ⟨best, hmem, fun m hm => (Prod.Lex.le_iff ..).mp (hbest m hm)⟩

section Complete
variable (hW : W.Complete)
include hW

omit [DecidableEq Id] [DecidableEq Addr] in
theorem Wiring.Complete.peers_ne_nil (hm : m ≠ n) : W.peers n ≠ [] := by
  obtain ⟨p, hp, -⟩ := hW.reached n m hm
  exact List.ne_nil_of_mem hp

theorem leads_elected (hq : ((W.peers n).length + 1) / 2 + 1 ≤ up.card) (hn : n ∈ up) (hm : m ≠ n)
    (hr : (raft W Cmd).Reachable s) (hx : (s.nodes n).state ≠ .leader)
    (hbest : ∀ v ∈ up, UpToDate (s.nodes n).log (s.nodes v).log) :
    ∃ t, (raft W Cmd).Leads (QuietStep W up) s t ∧ (t.nodes n).state = .leader ∧
      ∀ v ∈ up, (t.nodes v).currentTerm ≤ (t.nodes n).currentTerm := by
  obtain ⟨top, -, hbound⟩ := exists_highest_term ⟨n, hn⟩ s
  obtain ⟨t, hst, htx, hge, hlog, hother⟩ := leads_overtake hr hn hx (hW.peers_ne_nil hm)
    (s.nodes top).currentTerm
  have htr := hst.reachable hr
  have hI : VoteInv W t := .reach htr
  have hpeers : (t.nodes n).peers = W.peers n := hI.peers n
  have hstep := step_electionTimeout (W := W) htx (hpeers ▸ hW.peers_ne_nil hm)
  have hterm (v : Id) (hup : v ∈ up) (hv : v ≠ n) :
      (t.nodes v).currentTerm ≤ (t.nodes n).currentTerm := by
    rw [hother v hv]
    exact (hbound v hup).trans hge
  generalize hu : t.move n _ _ _ = u at hstep
  have hun : u.nodes n = (t.nodes n).campaign := by rw [← hu, move_self]
  have huv (v : Id) (hv : v ≠ n) : u.nodes v = t.nodes v := by
    rw [← hu, move_of_ne _ _ _ _ hv]
  have hcanvass : Canvassing W up n (t.nodes n).campaign.voteRequest (W.peers n) u :=
    { mem := hn
      reach := .step htr trivial hstep
      asked := ⟨t.net, by rw [← hu, move_net, hpeers]⟩
      sublist := List.Sublist.refl _
      term := by rw [hun]; rfl
      others := fun v hup => by
        by_cases hv : v = n
        · rw [hv, hun]
          rfl
        · rw [huv v hv]
          exact (hterm v hup hv).trans (Nat.le_succ _)
      fresh := fun p _ v hup _ hv => by
        rw [huv v hv]
        refine ⟨Nat.lt_succ_of_le (hterm v hup hv), (logOk_voteRequest _).mpr ?_⟩
        rw [hother v hv]
        exact hlog ▸ hbest v hup
      tally := by
        rw [hun]
        refine .inr ⟨rfl, ?_, fun v _ => ?_⟩
        · have hpos := List.length_pos_of_ne_nil (hpeers ▸ hW.peers_ne_nil hm)
          change Finset.card {(t.nodes n).nodeId} < ((t.nodes n).peers.length + 1) / 2 + 1
          rw [Finset.card_singleton]
          omega
        · by_cases hv : v = n
          · refine .inl ?_
            rw [hv]
            exact Finset.mem_singleton.mpr (hI.nodeId n).symm
          · obtain ⟨p, hp, hroute⟩ := hW.reached n v hv
            exact .inr ⟨hv, p, hp, hroute⟩ }
  obtain ⟨w, huw, hlead, hwn, hw⟩ := hcanvass.win hW hq
  refine ⟨w, (hst.tail ⟨_, quietStep_electionTimeout t hn, hstep⟩).trans huw, hlead, ?_⟩
  rw [hwn]
  exact hw

theorem leads_stepDown (hn : n ∈ up) (hmem : m ∈ up) (hm : m ≠ n) (hr : (raft W Cmd).Reachable s)
    (hx : (s.nodes m).state ≠ .leader) :
    ∃ t, (raft W Cmd).Leads (QuietStep W up) s t ∧ (t.nodes n).state ≠ .leader ∧
      ∀ v, (t.nodes v).log = (s.nodes v).log := by
  obtain ⟨top, -, hbound⟩ := exists_highest_term ⟨n, hn⟩ s
  obtain ⟨t, hst, htx, hge, hlog, hother⟩ := leads_overtake hr hmem hx (hW.peers_ne_nil hm.symm)
    (s.nodes top).currentTerm
  have htr := hst.reachable hr
  have hpeers : (t.nodes m).peers = W.peers m := (VoteInv.reach htr).peers m
  have hstep := step_electionTimeout (W := W) htx (hpeers ▸ hW.peers_ne_nil hm.symm)
  obtain ⟨p, hp, hroute⟩ := hW.reached m n hm.symm
  obtain ⟨i, hi⟩ := List.mem_iff_getElem?.mp (hpeers ▸ hp)
  generalize hu : t.move m _ _ _ = u at hstep
  have hk : u.net[t.net.length + i]? =
      some (.vote m p (t.nodes m).campaign.voteRequest none) := by
    rw [← hu, move_net, List.getElem?_append_right (Nat.le_add_right _ _),
      Nat.add_sub_cancel_left, List.getElem?_map, hi]
    rfl
  have hun : u.nodes n = s.nodes n := by rw [← hu, move_of_ne _ _ _ _ hm.symm, hother n hm.symm]
  have hlt : (u.nodes n).currentTerm < (t.nodes m).campaign.voteRequest.term := by
    rw [hun]
    exact Nat.lt_succ_of_le ((hbound n hn).trans hge)
  refine ⟨_, (hst.tail ⟨_, quietStep_electionTimeout t hmem, hstep⟩).tail
    ⟨_, quietStep_voteRequest hk hroute hn hlt, step_voteRequest hk hroute⟩, ?_, fun v => ?_⟩
  · rw [move_self, handleVoteRequest_follower hlt]
    simp
  · by_cases hv : v = n
    · subst hv
      obtain ⟨T, vote, state, hb, -, he⟩ :=
        handleVoteRequest_frame (u.nodes v) (t.nodes m).campaign.voteRequest
      rw [move_self, he, hun]
    · rw [move_of_ne _ _ _ _ hv, ← hu]
      by_cases hvm : v = m
      · rw [hvm, move_self]
        exact hlog
      · rw [move_of_ne _ _ _ _ hvm, hother v hvm]

/-- As long as those that are up are a quorum, one of them can become leader of a term that is not
below any of theirs. -/
theorem leads_leader [Nontrivial Id] (hup : up.Nonempty)
    (hq : ∀ n ∈ up, ((W.peers n).length + 1) / 2 + 1 ≤ up.card) (hr : (raft W Cmd).Reachable s) :
    ∃ t, ∃ n ∈ up, (raft W Cmd).Leads (QuietStep W up) s t ∧ (t.nodes n).state = .leader ∧
      ∀ v ∈ up, (t.nodes v).currentTerm ≤ (t.nodes n).currentTerm := by
  obtain ⟨n, hn, hbest⟩ := exists_upToDate hup s
  obtain ⟨m, hm⟩ := exists_ne n
  by_cases hx : (s.nodes n).state = .leader
  · by_cases hall : ∀ v ∈ up, (s.nodes v).state = .leader
    · -- nobody can time out; the leader of the highest term can go on
      obtain ⟨top, hmem, htop⟩ := exists_highest_term hup s
      exact ⟨s, top, hmem, .refl, hall top hmem, htop⟩
    · push Not at hall
      obtain ⟨v, hmem, hv⟩ := hall
      have hvn : v ≠ n := fun he => hv (he ▸ hx)
      obtain ⟨t, hst, htx, hlog⟩ := leads_stepDown hW hn hmem hvn hr hv
      obtain ⟨u, htu, hu⟩ := leads_elected hW (hq n hn) hn hm (hst.reachable hr) htx fun v hv => by
        rw [hlog, hlog]
        exact hbest v hv
      exact ⟨u, n, hn, hst.trans htu, hu⟩
  · obtain ⟨t, hst, ht⟩ := leads_elected hW (hq n hn) hn hm hr hx hbest
    exact ⟨t, n, hn, hst, ht⟩

end Complete
end Election
end DistSync.Raft
