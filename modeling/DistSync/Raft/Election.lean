import DistSync.Raft.Votes

/-! Election safety. A follower forgets its vote whenever it accepts an
`append_entries` of its own term, so two leaders of one term are possible; they
are excluded exactly by runs in which no node then votes for a second candidate. -/
namespace DistSync.Raft
open TermLog RaftNode
variable {Id Addr Cmd : Type} [DecidableEq Id] [DecidableEq Addr]
variable {W : Wiring Id Addr} {s t : Cluster Id Addr Cmd}

/-- A node asked for its vote of a term in which it already voted, and whose
`voted_for` was cleared since, is asked by the candidate it voted for. -/
def VotesOnce (W : Wiring Id Addr) (s : Cluster Id Addr Cmd) (a : Action Id Cmd) : Prop :=
  ∀ d ∈ voteRequestAt W s a, d.2.term = (s.nodes d.1).currentTerm →
    (s.nodes d.1).votedFor = none → (s.nodes d.1).logOk d.2 →
      ∀ c ∈ votesCast s.history d.1 d.2.term, c = d.2.candidateId

instance (W : Wiring Id Addr) (s : Cluster Id Addr Cmd) (a : Action Id Cmd) :
    Decidable (VotesOnce W s a) :=
  inferInstanceAs (Decidable (∀ d ∈ voteRequestAt W s a, _))

def ElectionSafe (h : List (Event Id Cmd)) : Prop :=
  ∀ n m T l l', .becameLeader n T l ∈ h → .becameLeader m T l' ∈ h → n = m

def elections (h : List (Event Id Cmd)) : List (Id × Nat) :=
  h.filterMap fun
    | .becameLeader n T _ => some (n, T)
    | _ => none

omit [DecidableEq Id] in
theorem mem_elections {h : List (Event Id Cmd)} {n : Id} {T : Nat} :
    (n, T) ∈ elections h ↔ ∃ l, .becameLeader n T l ∈ h := by
  simp only [elections, List.mem_filterMap]
  constructor
  · intro hx
    obtain ⟨e, he, hn⟩ := hx
    split at hn
    · cases hn
      exact ⟨_, he⟩
    · cases hn
  · intro hx
    obtain ⟨l, hl⟩ := hx
    exact ⟨_, hl, rfl⟩

omit [DecidableEq Id] in
theorem electionSafe_iff {h : List (Event Id Cmd)} :
    ElectionSafe h ↔ ∀ p ∈ elections h, ∀ q ∈ elections h, p.2 = q.2 → p.1 = q.1 := by
  constructor
  · rintro hs ⟨n, T⟩ hn ⟨m, T'⟩ hm heq
    obtain ⟨l, hl⟩ := mem_elections.mp hn
    obtain ⟨l', hl'⟩ := mem_elections.mp hm
    cases heq
    exact hs n m T l l' hl hl'
  · intro hs n m T l l' hn hm
    exact hs (n, T) (mem_elections.mpr ⟨l, hn⟩) (m, T) (mem_elections.mpr ⟨l', hm⟩) rfl

instance (h : List (Event Id Cmd)) : Decidable (ElectionSafe h) :=
  decidable_of_iff' _ electionSafe_iff

omit [DecidableEq Id] in
theorem ElectionSafe.of_append {a h : List (Event Id Cmd)} (hs : ElectionSafe (a ++ h)) :
    ElectionSafe h :=
  fun n m T l l' hn hm => hs n m T l l' (List.mem_append_right a hn) (List.mem_append_right a hm)

theorem electionSafe_of_step {a : Action Id Cmd} (hs : (raft W Cmd).step s a = some t)
    (h : ElectionSafe t.history) : ElectionSafe s.history := by
  obtain ⟨new, hnew⟩ := step_history hs
  exact .of_append (hnew ▸ h)

structure OneVote (s : Cluster Id Addr Cmd) : Prop where
  held : ∀ v T c l, .voted v T c l ∈ s.history → T = (s.nodes v).currentTerm →
    (s.nodes v).votedFor = none ∨ (s.nodes v).votedFor = some c
  once : ∀ v T c l c' l', .voted v T c l ∈ s.history → .voted v T c' l' ∈ s.history → c = c'

omit [DecidableEq Id] [DecidableEq Addr] in
theorem OneVote.of_new (h : OneVote s) (hV : VoteInv W s)
    (hp : ∀ m, (s.nodes m).currentTerm ≤ (t.nodes m).currentTerm)
    {a : List (Event Id Cmd)} (hh : t.history = a ++ s.history)
    (hnew : ∀ v T c l, .voted v T c l ∈ a → (t.nodes v).votedFor = some c ∧
      ∀ c' l', .voted v T c' l' ∈ t.history → c' = c)
    (hold : ∀ m, (t.nodes m).currentTerm = (s.nodes m).currentTerm →
      (t.nodes m).votedFor = (s.nodes m).votedFor ∨ (t.nodes m).votedFor = none ∨
        ∃ c l, .voted m (t.nodes m).currentTerm c l ∈ a) : OneVote t where
  held v T c l hm hT := by
    cases List.mem_append.mp (hh ▸ hm) with
    | inl ha => exact .inr (hnew v T c l ha).1
    | inr hs =>
      have hpast := (hV.past v T c l hs).2
      have hcur : (t.nodes v).currentTerm = (s.nodes v).currentTerm :=
        le_antisymm (hT ▸ hpast) (hp v)
      rcases hold v hcur with hv | hv | ⟨c', l', ha⟩
      · rw [hv]
        exact h.held v T c l hs (hT.trans hcur)
      · exact .inl hv
      · rw [← hT] at ha
        obtain ⟨hv, hc⟩ := hnew v T c' l' ha
        exact .inr (hv.trans (congrArg some (hc c l hm).symm))
  once v T c l c' l' hm hm' := by
    cases List.mem_append.mp (hh ▸ hm) with
    | inl ha => exact ((hnew v T c l ha).2 c' l' hm').symm
    | inr hs =>
      cases List.mem_append.mp (hh ▸ hm') with
      | inl ha' => exact (hnew v T c' l' ha').2 c l hm
      | inr hs' => exact h.once v T c l c' l' hs hs'

omit [DecidableEq Addr] in
theorem OneVote.move_silent (h : OneVote s) (hV : VoteInv W s) {n : Id}
    {y : RaftNode Id Addr Cmd} (hT : (s.nodes n).currentTerm ≤ y.currentTerm)
    (hy : y.currentTerm = (s.nodes n).currentTerm →
      y.votedFor = (s.nodes n).votedFor ∨ y.votedFor = none)
    {net : List (Rpc Id Addr Cmd)} {evs : List (Event Id Cmd)}
    (hv : ∀ v T c l, Event.voted v T c l ∉ evs) : OneVote (s.move n y net evs) := by
  refine h.of_new hV (fun m => ?_) (move_history ..) (fun v T c l hm => ?_) (fun m hm => ?_)
  · by_cases hmn : m = n
    · subst hmn
      rwa [move_self]
    · rw [move_of_ne _ _ _ _ hmn]
  · cases List.mem_append.mp hm with
    | inl hm => exact absurd hm not_mem_observe_voted
    | inr hm => exact absurd hm (hv v T c l)
  · by_cases hmn : m = n
    · subst hmn
      rw [move_self] at hm ⊢
      exact (hy hm).imp_right .inl
    · rw [move_of_ne _ _ _ _ hmn]
      exact .inl rfl

omit [DecidableEq Addr] in
theorem OneVote.move_passive (h : OneVote s) (hV : VoteInv W s) {n : Id}
    {y : RaftNode Id Addr Cmd} (hp : Passive (s.nodes n) y) {net : List (Rpc Id Addr Cmd)}
    {evs : List (Event Id Cmd)} (hv : ∀ v T c l, Event.voted v T c l ∉ evs) :
    OneVote (s.move n y net evs) :=
  h.move_silent hV hp.term hp.vote hv

omit [DecidableEq Addr] in
theorem OneVote.election (h : OneVote s) (hV : VoteInv W s) (n : Id) {y : RaftNode Id Addr Cmd}
    (hT : y.currentTerm = (s.nodes n).currentTerm + 1) (hy : y.votedFor = some n)
    (net : List (Rpc Id Addr Cmd)) :
    OneVote (s.move n y net [.voted n ((s.nodes n).currentTerm + 1) n (s.nodes n).log]) := by
  have hmem (v T c l) (hm : Event.voted v T c l ∈ observe n (s.nodes n) y ++
      [.voted n ((s.nodes n).currentTerm + 1) n (s.nodes n).log]) :
      v = n ∧ T = (s.nodes n).currentTerm + 1 ∧ c = n := by
    have hm := (List.mem_append.mp hm).resolve_left not_mem_observe_voted
    cases List.mem_singleton.mp hm
    exact ⟨rfl, rfl, rfl⟩
  refine h.of_new hV (fun m => ?_) (move_history ..) (fun v T c l hm => ?_) (fun m hm => ?_)
  · by_cases hmn : m = n
    · subst hmn
      rw [move_self, hT]
      exact Nat.le_succ _
    · rw [move_of_ne _ _ _ _ hmn]
  · obtain ⟨rfl, rfl, rfl⟩ := hmem v T c l hm
    rw [move_self]
    refine ⟨hy, fun c' l' hm' => ?_⟩
    cases List.mem_append.mp hm' with
    | inl hm' => exact (hmem _ _ _ _ hm').2.2
    | inr hm' =>
      have hpast := (hV.past _ _ _ _ hm').2
      omega
  · by_cases hmn : m = n
    · subst hmn
      rw [move_self, hT] at hm
      omega
    · rw [move_of_ne _ _ _ _ hmn]
      exact .inl rfl

omit [DecidableEq Addr] in
theorem OneVote.voteRequest (h : OneVote s) (hV : VoteInv W s) {dst : Id} {req : VoteRequest Id}
    (hg : (s.nodes dst).Grants req → ∀ c l, .voted dst req.term c l ∈ s.history →
      c = req.candidateId) (net : List (Rpc Id Addr Cmd)) :
    OneVote (s.move dst ((s.nodes dst).handleVoteRequest req).1 net
      (if ((s.nodes dst).handleVoteRequest req).2.voteGranted then
        [.voted dst req.term req.candidateId (s.nodes dst).log] else [])) := by
  by_cases hgr : (s.nodes dst).Grants req
  · obtain ⟨hT, hv, -⟩ := handleVoteRequest_of_grants _ hgr
    rw [if_pos ((handleVoteRequest_granted _ _).mpr hgr)]
    have hmem (v T c l) (hm : Event.voted v T c l ∈
        observe dst (s.nodes dst) ((s.nodes dst).handleVoteRequest req).1 ++
          [.voted dst req.term req.candidateId (s.nodes dst).log]) :
        v = dst ∧ T = req.term ∧ c = req.candidateId := by
      have hm := (List.mem_append.mp hm).resolve_left not_mem_observe_voted
      cases List.mem_singleton.mp hm
      exact ⟨rfl, rfl, rfl⟩
    refine h.of_new hV (fun m => ((steady_handleVoteRequest ..).move _ _ m).term)
      (move_history ..) (fun v T c l hm => ?_) (fun m hm => ?_)
    · obtain ⟨rfl, rfl, rfl⟩ := hmem v T c l hm
      rw [move_self]
      refine ⟨hv, fun c' l' hm' => ?_⟩
      cases List.mem_append.mp hm' with
      | inl hm' => exact (hmem _ _ _ _ hm').2.2
      | inr hm' => exact hg hgr c' l' hm'
    · by_cases hmd : m = dst
      · subst hmd
        rw [move_self, hT]
        exact .inr (.inr ⟨_, _, List.mem_append_right _ (List.mem_singleton_self _)⟩)
      · rw [move_of_ne _ _ _ _ hmd]
        exact .inl rfl
  · rw [if_neg (mt (handleVoteRequest_granted _ _).mp hgr),
      handleVoteRequest_of_not_grants _ hgr]
    refine h.move_passive hV ?_ (by simp)
    split
    · rename_i hlt
      exact passive_becomeFollower _ hlt.le
    · exact .refl _

theorem OneVote.step (h : OneVote s) (hV : VoteInv W s) {a : Action Id Cmd}
    (ha : VotesOnce W s a) (hs : (raft W Cmd).step s a = some t) : OneVote t := by
  cases step_cases hs with
  | election n hx =>
    by_cases hp : (s.nodes n).peers = []
    · rw [startElection_alone _ hp]
      exact h.election hV n rfl (congrArg some (hV.nodeId n)) _
    · rw [startElection_of_peers _ hp]
      exact h.election hV n rfl (congrArg some (hV.nodeId n)) _
  | voteRequest k src peer req dst hk hd =>
    refine h.voteRequest hV (fun hgr c l hm => ?_) _
    obtain ⟨hl, hlt | ⟨ht, hv | hv⟩⟩ := hgr
    · have hpast := (hV.past _ _ _ _ hm).2
      omega
    · refine ha (dst, req) ?_ ht.symm hv hl c (mem_votesCast.mpr ⟨l, hm⟩)
      simp [voteRequestAt, hk, hd]
    · cases h.held _ _ _ _ hm ht.symm with
      | inl hn =>
        rw [hn] at hv
        cases hv
      | inr hc => exact Option.some_injective _ (hc.symm.trans hv)
  | voteResponse k src peer req resp hk =>
    rcases handleVoteResponse_cases (s.nodes src) resp with
      he | ⟨-, ht, he⟩ | ⟨hc, -, -, he | ⟨-, he⟩⟩ <;> rw [he]
    · exact h.move_passive hV (.refl _) (by simp)
    · exact h.move_passive hV (passive_becomeFollower _ ht.le) (by simp)
    · refine h.move_silent hV ?_ (fun _ => .inl ?_) (by simp) <;> rfl
    · refine h.move_silent hV ?_ (fun _ => .inl ?_) (by simp) <;> rfl
  | appendRequest k src origin peer req nextIdx dst hk hd =>
    refine h.move_passive hV (passive_handleAppendEntries _ _) (fun v T c l hm => ?_)
    split at hm <;> simp at hm
  | appendResponse k src origin peer req nextIdx resp hk ha =>
    exact h.move_passive hV (passive_handleAppendEntriesResponse ..) (by simp)
  | propose n command => exact h.move_passive hV (passive_propose ..) (by simp)
  | finish n k c hk => exact h.move_passive hV (passive_finishPropose ..) (by simp)
  | apply n hx =>
    refine h.move_passive hV ?_ (fun v T c l hm => ?_)
    · exact .of_core rfl rfl rfl rfl rfl
    · split at hm <;> simp at hm
  | _ =>
    refine h.move_passive hV ?_ (by simp)
    exact .of_core rfl rfl rfl rfl rfl

theorem OneVote.reach (h : (raft W Cmd).Reach (VotesOnce W) s) : OneVote s :=
  h.invariant ⟨fun _ _ _ _ h => (by cases h), fun _ _ _ _ _ _ h => (by cases h)⟩
    fun _ _ _ hr hi ha hs => hi.step (.reach hr) ha hs

omit [DecidableEq Addr] in
theorem OneVote.electionSafe (hW : W.Complete) (h : OneVote s) (hV : VoteInv W s) :
    ElectionSafe s.history := by
  intro n m T l l' hn hm
  obtain ⟨A, hA, hsA⟩ := hV.elected n T l hn
  obtain ⟨B, hB, hsB⟩ := hV.elected m T l' hm
  obtain ⟨v, hvA, hvB⟩ := hW.quorum_meets hA (hW.more_than_half hB).le
  obtain ⟨lv, hvn, -⟩ := hsA v hvA
  obtain ⟨lv', hvm, -⟩ := hsB v hvB
  exact h.once v T n lv m lv' hvn hvm

/-- Election safety, in runs where no node votes for a second candidate of a term. -/
theorem electionSafe_of_votesOnce (hW : W.Complete) (h : (raft W Cmd).Reach (VotesOnce W) s) :
    ElectionSafe s.history :=
  (OneVote.reach h).electionSafe hW (.reach h)

/-- Node 0 wins term 1 with the vote of node 1. -/
def quietElection : List (Action (Fin 3) Nat) := [.electionTimeout 0, .deliver 0, .deliver 0]

theorem electionSafe_quietElection :
    ∃ s, (raft (mesh 3) Nat).runIf (VotesOnce (mesh 3)) (raft (mesh 3) Nat).init quietElection =
        some s ∧ .becameLeader 0 1 [] ∈ s.history ∧ ElectionSafe s.history := by
  have hrun : ((raft (mesh 3) Nat).runIf (VotesOnce (mesh 3)) (raft (mesh 3) Nat).init
      quietElection).any (fun s => .becameLeader 0 1 [] ∈ s.history) = true := by decide +kernel
  obtain ⟨s, hs, hl⟩ := (Option.any_eq_true ..).mp hrun
  exact ⟨s, hs, of_decide_eq_true hl,
    electionSafe_of_votesOnce (mesh_complete 3) (System.Reach.init.runIf hs)⟩

/-- Nodes 0 and 1 both come to term 3. Node 2 votes for 0, then an `append_entries`
of the new leader 0 clears its vote, and the delayed request of 1 gets a second one. -/
def doubleVote : List (Action (Fin 3) Nat) :=
  [.electionTimeout 0, .deliver 1, .deliver 1, .electionTimeout 1, .electionTimeout 1, .deliver 3,
   .electionTimeout 0, .electionTimeout 1, .deliver 6, .deliver 6,
   .runTask 0 0, .runTask 0 2, .deliver 8, .deliver 7, .deliver 7]

theorem not_electionSafe_doubleVote :
    ∃ s, (raft (mesh 3) Nat).run (raft (mesh 3) Nat).init doubleVote = some s ∧
      ¬ ElectionSafe s.history := by
  have hrun : ((raft (mesh 3) Nat).run (raft (mesh 3) Nat).init doubleVote).any
      (fun s => ¬ ElectionSafe s.history) = true := by decide +kernel
  obtain ⟨s, hs, hl⟩ := (Option.any_eq_true ..).mp hrun
  exact ⟨s, hs, of_decide_eq_true hl⟩

end DistSync.Raft
