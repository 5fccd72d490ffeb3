import DistSync.Raft.Completeness

/-! State machine safety. Every node's log up to its commit index is a prefix of
something a quorum stored; so are the requests' commit indices, and no accepted
request cuts such a prefix. What the apply loops hand over is therefore one sequence. -/
namespace DistSync.Raft
open TermLog RaftNode
variable {Id Addr Cmd : Type} [DecidableEq Id]
variable {W : Wiring Id Addr} {s t : Cluster Id Addr Cmd}

/-- `l` is part of what a quorum stored for a term up to `b`. -/
def Safe (W : Wiring Id Addr) (h : List (Event Id Cmd)) (l : List (LogEntry Id Cmd)) (b : Nat) :
    Prop :=
  l = [] ∨ ∃ T i, T ≤ b ∧ CommittedAt W h T i ∧ l <+: (leaderLog h T).take i

theorem Safe.of_isPrefix {h : List (Event Id Cmd)} {l l' : List (LogEntry Id Cmd)} {b : Nat}
    (hs : Safe W h l b) (hp : l' <+: l) : Safe W h l' b := by
  cases hs with
  | inl hs =>
    subst hs
    exact .inl (List.prefix_nil.mp hp)
  | inr hs =>
    obtain ⟨T, i, hT, hc, hl⟩ := hs
    exact .inr ⟨T, i, hT, hc, hp.trans hl⟩

theorem Safe.mono {l : List (LogEntry Id Cmd)} {b b' : Nat} (hs : Safe W s.history l b)
    (g : Stage W s t) (hb : b ≤ b') : Safe W t.history l b' := by
  cases hs with
  | inl hs =>
    subst hs
    exact .inl rfl
  | inr hs =>
    obtain ⟨T, i, hT, hc, hl⟩ := hs
    refine .inr ⟨T, i, hT.trans hb, hc.mono g, ?_⟩
    rwa [g.take_leaderLog hc.le_length]

section Safe
variable [DecidableEq Addr]
variable (hW : W.Complete) (hV : VoteInv W s) (hL : LogInv s) (hR : ReplicationInv s)
  (hS : Retained W s) (hsafe : ElectionSafe s.history)
include hW hV hL hR hS hsafe

theorem CommittedAt.comparable {T T' i i' : Nat} (hc : CommittedAt W s.history T i)
    (hc' : CommittedAt W s.history T' i') (hT : T ≤ T') :
    (leaderLog s.history T).take i <+: (leaderLog s.history T').take i' ∨
      (leaderLog s.history T').take i' <+: (leaderLog s.history T).take i := by
  have hp : (leaderLog s.history T).take i <+: leaderLog s.history T' := by
    cases eq_or_lt_of_le hT with
    | inl hc =>
      subst hc
      exact List.take_prefix _ _
    | inr hlt =>
      obtain ⟨m, l, hb⟩ := hL.led T' fun hnil => by
        have hterm := hc'.term
        rw [hnil] at hterm
        cases hterm
      exact (hc.elected hV hL hR hW hS hsafe hlt hb).trans (hR.elected _ _ _ hb).1
  exact List.prefix_or_prefix_of_prefix hp (List.take_prefix _ _)

theorem Safe.comparable {l l' : List (LogEntry Id Cmd)} {b b' : Nat} (hs : Safe W s.history l b)
    (hs' : Safe W s.history l' b') : l <+: l' ∨ l' <+: l := by
  rcases hs with rfl | ⟨T, i, -, hc, hl⟩
  · exact .inl List.nil_prefix
  rcases hs' with rfl | ⟨T', i', -, hc', hl'⟩
  · exact .inr List.nil_prefix
  cases le_total T T' with
  | inl hT =>
    cases hc.comparable hW hV hL hR hS hsafe hc' hT with
    | inl hp => exact List.prefix_or_prefix_of_prefix (hl.trans hp) hl'
    | inr hp => exact List.prefix_or_prefix_of_prefix hl (hl'.trans hp)
  | inr hT =>
    cases hc'.comparable hW hV hL hR hS hsafe hc hT with
    | inl hp => exact List.prefix_or_prefix_of_prefix hl (hl'.trans hp)
    | inr hp => exact List.prefix_or_prefix_of_prefix (hl.trans hp) hl'

/-- A safe prefix agrees with every request of a term that is not below its own. -/
theorem Safe.agrees {l : List (LogEntry Id Cmd)} {b : Nat} (hs : Safe W s.history l b) {src : Id}
    {req : AppendRequest Id Cmd} {nextIdx : Nat} (hreq : Snapshot s.history src req nextIdx)
    (hb : b ≤ req.term) : l <+: snapshot s.history req ∨ snapshot s.history req <+: l := by
  cases hs with
  | inl hs =>
    subst hs
    exact .inl List.nil_prefix
  | inr hs =>
    obtain ⟨T, i, hT, hc, hl⟩ := hs
    cases eq_or_lt_of_le (hT.trans hb) with
    | inl hc =>
      subst hc
      exact List.prefix_or_prefix_of_prefix (hl.trans (List.take_prefix _ _)) (snapshot_isPrefix ..)
    | inr hlt =>
      obtain ⟨l', hl'⟩ := hreq.led
      exact .inl (hl.trans ((hc.elected hV hL hR hW hS hsafe hlt hl').trans (hreq.elected _ _ hl')))

end Safe

/-- The positions and entries handed to the state machine of `n`, in order. -/
def appliedBy (h : List (Event Id Cmd)) (n : Id) : List (Nat × LogEntry Id Cmd) :=
  (h.filterMap fun
    | .applied m i e => if m = n then some (i, e) else none
    | _ => none).reverse

theorem applied_append {a : List (Event Id Cmd)} (ha : ∀ n i e, .applied n i e ∉ a)
    (h : List (Event Id Cmd)) (n : Id) : appliedBy (a ++ h) n = appliedBy h n := by
  have hnone : (a.filterMap fun
      | .applied m i e => if m = n then some (i, e) else none
      | _ => none) = [] := by
    rw [List.filterMap_eq_nil_iff]
    intro e he
    cases e with
    | applied m i e => exact absurd he (ha m i e)
    | _ => rfl
  rw [appliedBy, List.filterMap_append, hnone, List.nil_append, appliedBy]

theorem applied_cons (m : Id) (i : Nat) (e : LogEntry Id Cmd) (h : List (Event Id Cmd)) (n : Id) :
    appliedBy (.applied m i e :: h) n =
      if m = n then appliedBy h n ++ [(i, e)] else appliedBy h n := by
  unfold appliedBy
  rw [List.filterMap_cons]
  by_cases hm : m = n
  · simp [hm]
  · simp [hm]

variable [DecidableEq Addr]

theorem applied_step {a : Action Id Cmd} (hs : (raft W Cmd).step s a = some t) (n : Id) :
    (t.nodes n).lastApplied = (s.nodes n).lastApplied ∧ appliedBy t.history n = appliedBy s.history n ∨
    a = .applyNext n ∧ (s.nodes n).lastApplied < (s.nodes n).commitIndex ∧
      (t.nodes n).log = (s.nodes n).log ∧ (t.nodes n).lastApplied = (s.nodes n).lastApplied + 1 ∧
      ∀ e, (s.nodes n).log[(s.nodes n).lastApplied]? = some e →
        appliedBy t.history n = appliedBy s.history n ++ [((s.nodes n).lastApplied + 1, e)] := by
  have hmove {m : Id} {y : RaftNode Id Addr Cmd} {net : List (Rpc Id Addr Cmd)}
      {evs : List (Event Id Cmd)} (hev : ∀ k i e, Event.applied k i e ∉ evs)
      (hy : y.lastApplied = (s.nodes m).lastApplied) :
      ((s.move m y net evs).nodes n).lastApplied = (s.nodes n).lastApplied ∧
        appliedBy (s.move m y net evs).history n = appliedBy s.history n := by
    refine ⟨move_nodes (P := fun k (x : RaftNode Id Addr Cmd) =>
      x.lastApplied = (s.nodes k).lastApplied) (fun _ => rfl) hy n, ?_⟩
    refine applied_append (fun k i e hm => ?_) s.history n
    cases List.mem_append.mp hm with
    | inl ho => cases ofLeader_of_mem_observe ho
    | inr he => exact hev k i e he
  have hkeep {m : Id} {y : RaftNode Id Addr Cmd}
      (hv : y.toVolatileState = (s.nodes m).toVolatileState) :
      y.lastApplied = (s.nodes m).lastApplied := congrArg VolatileState.lastApplied hv
  cases step_cases hs with
  | election m hx => exact .inl (hmove (by simp) (hkeep (startElection_volatile _)))
  | voteRequest k src peer req dst hk hd =>
    refine .inl (hmove (fun k i e hm => ?_) (hkeep (handleVoteRequest_volatile _ req)))
    split at hm <;> simp at hm
  | voteResponse k src peer req resp hk =>
    exact .inl (hmove (by simp) (hkeep (handleVoteResponse_volatile _ resp)))
  | appendRequest k src origin peer req nextIdx dst hk hd =>
    refine .inl (hmove (fun k i e hm => ?_) (handleAppendEntries_lastApplied _ req))
    split at hm <;> simp at hm
  | appendResponse k src origin peer req nextIdx resp hk ha =>
    exact .inl (hmove (by simp) (handleAppendEntriesResponse_lastApplied ..))
  | propose m command => exact .inl (hmove (by simp) (hkeep (propose_volatile ..)))
  | finish m k c hk => exact .inl (hmove (by simp) (hkeep (finishPropose_volatile ..)))
  | apply m hx =>
    by_cases hnm : n = m
    · subst hnm
      rw [move_self]
      refine .inr ⟨rfl, hx, rfl, rfl, fun e he => ?_⟩
      have happ : (s.nodes n).applyNext.2 = some e := he
      have hobs : ∀ k i e, .applied k i e ∉ observe n (s.nodes n) (s.nodes n).applyNext.1 :=
        fun k i e ho => by cases ofLeader_of_mem_observe ho
      rw [move_history, happ, List.append_assoc, applied_append hobs, List.singleton_append,
        applied_cons, if_pos rfl]
    · rw [move_of_ne _ _ _ _ hnm, move_history, List.append_assoc, applied_append fun k i e ho => by
        cases ofLeader_of_mem_observe ho]
      refine .inl ⟨rfl, ?_⟩
      split
      · rw [List.singleton_append, applied_cons, if_neg (Ne.symm hnm)]
      · rfl
  | send m k origin peer hk ha => exact .inl (hmove (by simp) rfl)
  | _ => exact .inl (hmove (by simp) rfl)

structure MachineInv (W : Wiring Id Addr) (s : Cluster Id Addr Cmd) : Prop where
  commit_le : ∀ n, (s.nodes n).commitIndex ≤ (s.nodes n).log.length
  committed : ∀ n, Safe W s.history ((s.nodes n).log.take (s.nodes n).commitIndex)
    (s.nodes n).currentTerm
  request : ∀ src origin peer req nextIdx reply, .append src origin peer req nextIdx reply ∈ s.net →
    req.leaderCommit ≤ req.prevLogIndex + req.entries.length ∧
      Safe W s.history ((snapshot s.history req).take req.leaderCommit) req.term
  applied_le : ∀ n, (s.nodes n).lastApplied ≤ (s.nodes n).commitIndex
  applied : ∀ n, (appliedBy s.history n).map Prod.fst = List.range' 1 (s.nodes n).lastApplied ∧
    (appliedBy s.history n).map Prod.snd = (s.nodes n).log.take (s.nodes n).lastApplied

section Step
variable (hW : W.Complete) (g : Stage W s t) (hR : ReplicationInv s) (hS : Retained W s)
  (h : MachineInv W s)
include hW g hR hS h

/-- No step cuts a log at or below the commit index. -/
theorem MachineInv.keeps (n : Id) :
    (s.nodes n).log.take (s.nodes n).commitIndex <+: (t.nodes n).log := by
  have hp : (s.nodes n).log.take (s.nodes n).commitIndex <+: (s.nodes n).log :=
    List.take_prefix _ _
  cases g.step with
  | keep log leads old logs commit => rwa [log]
  | lead m e other leads log term how appended old logs commit =>
    by_cases hnm : n = m
    · subst hnm
      rw [log]
      exact hp.trans (List.prefix_append _ _)
    · rwa [other n hnm]
  | accept dst src origin peer req nextIdx ok sent other leads newer term outcome old logs =>
    by_cases hnd : n = dst
    · subst hnd
      have hreq := hR.request _ _ _ _ _ _ sent
      have hsafe : ElectionSafe s.history := fun _ _ _ _ _ hn hm =>
        g.safe.elections _ _ _ _ _ (g.old _ hn) (g.old _ hm)
      exact hreq.keeps g.logs g.votes outcome hp
        ((h.committed n).agrees hW g.votes g.logs hR hS hsafe hreq newer)
    · rwa [other n hnd]

theorem MachineInv.take_commit (n : Id) :
    (s.nodes n).commitIndex ≤ (t.nodes n).log.length ∧
      (t.nodes n).log.take (s.nodes n).commitIndex =
        (s.nodes n).log.take (s.nodes n).commitIndex := by
  have hp := h.keeps hW g hR hS n
  have hlen := List.length_take_of_le (h.commit_le n)
  refine ⟨hlen ▸ hp.length_le, ?_⟩
  rw [take_of_isPrefix hp hlen.ge, List.take_take, Nat.min_self]

theorem MachineInv.commit_step (hC : CommitInv W t) (n : Id) :
    (s.nodes n).commitIndex ≤ (t.nodes n).commitIndex ∧
      (t.nodes n).commitIndex ≤ (t.nodes n).log.length ∧
      Safe W t.history ((t.nodes n).log.take (t.nodes n).commitIndex) (t.nodes n).currentTerm := by
  have hsame (heq : (t.nodes n).commitIndex = (s.nodes n).commitIndex) :
      (s.nodes n).commitIndex ≤ (t.nodes n).commitIndex ∧
        (t.nodes n).commitIndex ≤ (t.nodes n).log.length ∧
        Safe W t.history ((t.nodes n).log.take (t.nodes n).commitIndex)
          (t.nodes n).currentTerm := by
    obtain ⟨hle, htake⟩ := h.take_commit hW g hR hS n
    rw [heq, htake]
    exact ⟨le_rfl, hle, (h.committed n).mono g (g.term n)⟩
  cases g.step with
  | keep log leads old logs commit =>
    cases commit n with
    | inl heq => exact hsame heq
    | inr hc =>
      obtain ⟨hlt, hev⟩ := hc
      obtain ⟨hc, htake⟩ := hC _ _ _ _ hev
      have hlen := congrArg List.length htake
      rw [List.length_take_of_le hc.le_length, List.length_take] at hlen
      refine ⟨hlt.le, by omega, .inr ⟨_, _, le_rfl, hc, ?_⟩⟩
      rw [htake]
  | lead m e other leads log term how appended old logs commit =>
    by_cases hnm : n = m
    · subst hnm
      exact hsame commit
    · exact hsame (by rw [other n hnm])
  | accept dst src origin peer req nextIdx ok sent other leads newer term outcome old logs =>
    by_cases hnd : n = dst
    · subst hnd
      have hreq := hR.request _ _ _ _ _ _ sent
      obtain ⟨hle, hcommit⟩ := h.request _ _ _ _ _ _ sent
      cases outcome.commit_cases with
      | inl heq => exact hsame heq
      | inr hc =>
        obtain ⟨rfl, hlt, heq⟩ := hc
        have hp : snapshot s.history req <+: (t.nodes n).log := by
          cases hreq.installs g.logs g.votes outcome with
          | inl hc =>
            obtain ⟨hp, he⟩ := hc
            rwa [he]
          | inr hc =>
            obtain ⟨-, he⟩ := hc
            rw [he]
        have hlen := hp.length_le
        rw [hreq.length_eq] at hlen
        rw [heq, Nat.min_eq_left (hle.trans hlen), term,
          take_of_isPrefix hp (hreq.length_eq ▸ hle)]
        exact ⟨hlt.le, hle.trans hlen, hcommit.mono g le_rfl⟩
    · exact hsame (by rw [other n hnd])

omit hW hS in
theorem MachineInv.request_step {a : Action Id Cmd} (hs : (raft W Cmd).step s a = some t)
    (src : Id) (origin : Origin) (peer : Addr) (req : AppendRequest Id Cmd) (nextIdx : Nat)
    (reply : Option AppendResponse) (hm : .append src origin peer req nextIdx reply ∈ t.net) :
    req.leaderCommit ≤ req.prevLogIndex + req.entries.length ∧
      Safe W t.history ((snapshot t.history req).take req.leaderCommit) req.term := by
  have hold (hreq : Snapshot s.history src req nextIdx)
      (hle : req.leaderCommit ≤ req.prevLogIndex + req.entries.length)
      (hsafe : Safe W s.history ((snapshot s.history req).take req.leaderCommit) req.term) :
      req.leaderCommit ≤ req.prevLogIndex + req.entries.length ∧
        Safe W t.history ((snapshot t.history req).take req.leaderCommit) req.term := by
    have heq : snapshot t.history req = snapshot s.history req := g.take_leaderLog hreq.length
    rw [heq]
    exact ⟨hle, hsafe.mono g le_rfl⟩
  rcases Raft.request_step hs hm with hm | ⟨dst, -, hm, -⟩ | ⟨-, rfl, rfl, hsent⟩
  · exact hold (hR.request _ _ _ _ _ _ hm) (h.request _ _ _ _ _ _ hm).1
      (h.request _ _ _ _ _ _ hm).2
  · exact hold (hR.request _ _ _ _ _ _ hm) (h.request _ _ _ _ _ _ hm).1
      (h.request _ _ _ _ _ _ hm).2
  · have hn := (g.safe.sends _ _ _ _ hsent).1
    have hreq := hR.snapshot g.logs hn peer
    have hsnap := hR.snapshot_eq g.logs hn peer
    have hle : (s.nodes src).commitIndex ≤ _ := h.commit_le src
    rw [← hsnap, hreq.length_eq] at hle
    refine hold hreq hle ?_
    rw [hsnap]
    exact h.committed src

theorem MachineInv.applied_step {a : Action Id Cmd} (hs : (raft W Cmd).step s a = some t)
    (hC : CommitInv W t) (n : Id) : (t.nodes n).lastApplied ≤ (t.nodes n).commitIndex ∧
      (appliedBy t.history n).map Prod.fst = List.range' 1 (t.nodes n).lastApplied ∧
      (appliedBy t.history n).map Prod.snd = (t.nodes n).log.take (t.nodes n).lastApplied := by
  have hcommit := (h.commit_step hW g hR hS hC n).1
  have hle := h.applied_le n
  obtain ⟨hpos, hent⟩ := h.applied n
  cases Raft.applied_step hs n with
  | inl hc =>
    obtain ⟨hla, happ⟩ := hc
    have htake := congrArg (List.take (s.nodes n).lastApplied) (h.take_commit hW g hR hS n).2
    rw [List.take_take, List.take_take, Nat.min_eq_left hle] at htake
    rw [hla, happ, htake]
    exact ⟨hle.trans hcommit, hpos, hent⟩
  | inr hc =>
    obtain ⟨-, hlt, hlog, hla, happ⟩ := hc
    have hi : (s.nodes n).lastApplied < (s.nodes n).log.length :=
      hlt.trans_le (h.commit_le n)
    rw [hla, happ _ (List.getElem?_eq_getElem hi), hlog, List.map_append, List.map_append, hpos,
      hent, List.range'_concat, ← List.take_append_getElem hi]
    refine ⟨hlt.trans_le hcommit, ?_, rfl⟩
    simp only [List.map_cons, List.map_nil, Nat.one_mul, Nat.add_comm 1]

theorem MachineInv.step {a : Action Id Cmd} (hs : (raft W Cmd).step s a = some t)
    (hC : CommitInv W t) : MachineInv W t where
  commit_le n := (h.commit_step hW g hR hS hC n).2.1
  committed n := (h.commit_step hW g hR hS hC n).2.2
  request := h.request_step g hR hs
  applied_le n := (h.applied_step hW g hR hS hs hC n).1
  applied n := (h.applied_step hW g hR hS hs hC n).2

end Step

theorem MachineInv.init : MachineInv W (raft W Cmd).init where
  commit_le _ := le_rfl
  committed _ := .inl rfl
  request _ _ _ _ _ _ h := by cases h
  applied_le _ := le_rfl
  applied _ := ⟨rfl, rfl⟩

theorem MachineInv.reach {guard : Cluster Id Addr Cmd → Action Id Cmd → Prop} (hW : W.Complete)
    (h : (raft W Cmd).Reach guard s) (hd : Disciplined s.history) : MachineInv W s :=
  h.invariant_of_past (H := fun s => Disciplined s.history)
    (fun _ _ _ hs ht => ht.of_step hs) .init
    (fun _ _ _ hr ht hi hs => hi.step hW (.of_reach hr hs ht) (.reach hr (ht.of_step hs))
      (.reach hr (ht.of_step hs)) hs (.reach hW (.step hr.reachable trivial hs) ht)) hd

/-- What the nodes have handed over are prefixes of one sequence, and each handed over
its log from position 1 on, every position once. -/
structure StateMachineSafe (s : Cluster Id Addr Cmd) : Prop where
  comparable : ∀ n m, (appliedBy s.history n).map Prod.snd <+: (appliedBy s.history m).map Prod.snd ∨
    (appliedBy s.history m).map Prod.snd <+: (appliedBy s.history n).map Prod.snd
  positions : ∀ n,
    (appliedBy s.history n).map Prod.fst = List.range' 1 (appliedBy s.history n).length
  entries : ∀ n,
    (appliedBy s.history n).map Prod.snd = (s.nodes n).log.take (appliedBy s.history n).length

omit [DecidableEq Addr] in
theorem MachineInv.safe_applied (h : MachineInv W s) (n : Id) :
    Safe W s.history ((appliedBy s.history n).map Prod.snd) (s.nodes n).currentTerm := by
  refine (h.committed n).of_isPrefix ?_
  rw [(h.applied n).2]
  exact List.take_prefix_take_left (h.applied_le n)

theorem MachineInv.stateMachineSafe (hW : W.Complete) (h : MachineInv W s) (hV : VoteInv W s)
    (hL : LogInv s) (hR : ReplicationInv s) (hS : Retained W s)
    (hsafe : ElectionSafe s.history) : StateMachineSafe s := by
  have hlen (n : Id) : (appliedBy s.history n).length = (s.nodes n).lastApplied := by
    have hp := congrArg List.length (h.applied n).1
    rwa [List.length_map, List.length_range'] at hp
  refine ⟨fun n m => ?_, fun n => ?_, fun n => ?_⟩
  · exact (h.safe_applied n).comparable hW hV hL hR hS hsafe (h.safe_applied m)
  · rw [hlen]
    exact (h.applied n).1
  · rw [hlen]
    exact (h.applied n).2

/-- The three disciplines on a step: no second vote, no stale replication, no stale success. -/
def SafeStep (W : Wiring Id Addr) (s : Cluster Id Addr Cmd) (a : Action Id Cmd) : Prop :=
  VotesOnce W s a ∧ ProposalsReplicateAsLeader s a ∧ CountsOwnSuccesses s a

instance (W : Wiring Id Addr) (s : Cluster Id Addr Cmd) (a : Action Id Cmd) :
    Decidable (SafeStep W s a) := inferInstanceAs (Decidable (_ ∧ _))

theorem disciplined_of_safeStep (hW : W.Complete) (h : (raft W Cmd).Reach (SafeStep W) s) :
    Disciplined s.history where
  elections := (OneVote.reach (h.mono fun _ _ ha => ha.1)).electionSafe hW (.reach h)
  sends := .reach (h.mono fun _ _ ha => ha.2.1)
  successes := .reach (fun _ _ ha => ha.2.2) h

/-- State machine safety, in runs whose steps keep the three disciplines. -/
theorem stateMachineSafe_of_safeStep (hW : W.Complete) (h : (raft W Cmd).Reach (SafeStep W) s) :
    StateMachineSafe s :=
  have hd := disciplined_of_safeStep hW h
  (MachineInv.reach hW h hd).stateMachineSafe hW (.reach h) (.reach h hd.elections) (.reach h hd)
    (.reach h hd) hd.elections

/-- Leader 0 commits its `no_op` with node 1 and applies it. -/
def firstCommit : List (Action (Fin 3) Nat) :=
  [.electionTimeout 0, .deliver 0, .deliver 0, .runTask 0 0, .runTask 0 0, .deliver 1, .deliver 1,
   .applyNext 0]

theorem stateMachineSafe_firstCommit :
    ∃ s, (raft (mesh 3) Nat).runIf (SafeStep (mesh 3)) (raft (mesh 3) Nat).init firstCommit =
        some s ∧ appliedBy s.history 0 = [(1, ⟨1, 1, .noOp 0, none, 0⟩)] ∧ StateMachineSafe s := by
  have hrun : ((raft (mesh 3) Nat).runIf (SafeStep (mesh 3)) (raft (mesh 3) Nat).init
      firstCommit).any (fun s => appliedBy s.history 0 = [(1, ⟨1, 1, .noOp 0, none, 0⟩)]) = true := by
    decide +kernel
  obtain ⟨s, hs, hl⟩ := (Option.any_eq_true ..).mp hrun
  exact ⟨s, hs, of_decide_eq_true hl,
    stateMachineSafe_of_safeStep (mesh_complete 3) (System.Reach.init.runIf hs)⟩

/-- Two leaders of term 3, elected with two votes of node 2, both commit position 1
with the help of node 2, and each applies its own entry there. -/
def twoMachines : List (Action (Fin 3) Nat) :=
  [.electionTimeout 0, .deliver 1, .deliver 1, .electionTimeout 1, .electionTimeout 1, .deliver 3,
   .electionTimeout 0, .electionTimeout 1, .deliver 6, .deliver 6,
   .runTask 0 0, .runTask 0 2, .deliver 8, .deliver 7, .deliver 7,
   .deliver 7, .runTask 0 0, .runTask 0 2, .deliver 7, .deliver 7, .applyNext 0,
   .runTask 1 0, .runTask 1 1, .deliver 7, .deliver 7, .applyNext 1]

theorem not_stateMachineSafe_twoMachines :
    ∃ s, (raft (mesh 3) Nat).run (raft (mesh 3) Nat).init twoMachines = some s ∧
      ¬ StateMachineSafe s := by
  have hrun : ((raft (mesh 3) Nat).run (raft (mesh 3) Nat).init twoMachines).any (fun s =>
      appliedBy s.history 0 = [(1, ⟨1, 1, .noOp 0, none, 0⟩)] ∧
      appliedBy s.history 1 = [(1, ⟨3, 1, .noOp 1, none, 0⟩)]) = true := by
    decide +kernel
  obtain ⟨s, hs, hl⟩ := (Option.any_eq_true ..).mp hrun
  obtain ⟨h0, h1⟩ := of_decide_eq_true hl
  refine ⟨s, hs, fun h => ?_⟩
  have hcmp := h.comparable 0 1
  rw [h0, h1] at hcmp
  exact absurd hcmp (by decide)

end DistSync.Raft
