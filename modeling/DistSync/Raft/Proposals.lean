import DistSync.Raft.LogMatching

/-! What a `propose` call that returns `True` has achieved. Futures are kept by log
index and outlive the entry they were made for, so the answer is right as long as
no entry that a future still stands for is cut from the log. -/
namespace DistSync.Raft
open TermLog RaftNode
variable {Id Addr Cmd : Type}
variable {W : Wiring Id Addr} {s t : Cluster Id Addr Cmd}

/-- The length to which `handle_append_entries` cuts the log before it appends, if it cuts it. -/
def RaftNode.cutAt (x : RaftNode Id Addr Cmd) (req : AppendRequest Id Cmd) : Option Nat :=
  if req.term < x.currentTerm ∨ x.log.length < req.prevLogIndex then none
  else if 0 < req.prevLogIndex ∧
      x.log[req.prevLogIndex - 1]?.map LogEntry.term ≠ some req.prevLogTerm then
    some (req.prevLogIndex - 1)
  else cutPoint LogEntry.term x.log req.prevLogIndex req.entries

/-- The call's future is resolved, or registered under the call's index. -/
def RaftNode.Stands (x : RaftNode Id Addr Cmd) (c : ProposeCall Id Cmd) : Prop :=
  c.resolved = true ∨ x.pendingCommits.get? c.entry.index = some c.future

instance (x : RaftNode Id Addr Cmd) (c : ProposeCall Id Cmd) : Decidable (x.Stands c) :=
  inferInstanceAs (Decidable (_ ∨ _))

/-- An `append_entries` request cuts no entry that a suspended call's future stands for. -/
def KeepsProposals (W : Wiring Id Addr) (s : Cluster Id Addr Cmd) (a : Action Id Cmd) : Prop :=
  ∀ d ∈ appendRequestAt W s a, ∀ j ∈ (s.nodes d.1).cutAt d.2,
    ∀ c ∈ (s.nodes d.1).calls, (s.nodes d.1).Stands c → c.entry.index ≤ j

instance (W : Wiring Id Addr) (s : Cluster Id Addr Cmd) (a : Action Id Cmd) :
    Decidable (KeepsProposals W s a) :=
  inferInstanceAs (Decidable (∀ d ∈ appendRequestAt W s a, ∀ j ∈ _, ∀ c ∈ _, _))

/-- A call that returned `True` left its entry in the log, at its index and committed. -/
def PromisesKept (h : List (Event Id Cmd)) : Prop :=
  ∀ n entry log commitIndex, .returned n entry true log commitIndex ∈ h →
    log[entry.index - 1]? = some entry ∧ entry.index ≤ commitIndex

structure Accounted (x : RaftNode Id Addr Cmd) : Prop where
  call_lt : ∀ c ∈ x.calls, c.future < x.fresh
  pending_lt : ∀ i f, x.pendingCommits.get? i = some f → f < x.fresh
  index : ∀ c ∈ x.calls, ∀ i, x.pendingCommits.get? i = some c.future → c.entry.index = i
  pos : ∀ c ∈ x.calls, 0 < c.entry.index
  inLog : ∀ c ∈ x.calls, x.Stands c → x.log[c.entry.index - 1]? = some c.entry
  committed : ∀ c ∈ x.calls, c.resolved = true → c.entry.index ≤ x.commitIndex

section Handlers
variable {x : RaftNode Id Addr Cmd}

theorem Accounted.of_frame {y : RaftNode Id Addr Cmd} (h : Accounted x)
    (hc : ∀ c ∈ y.calls, c ∈ x.calls)
    (hp : ∀ i f, y.pendingCommits.get? i = some f → x.pendingCommits.get? i = some f)
    (hf : x.fresh ≤ y.fresh)
    (hl : ∀ c ∈ y.calls, x.Stands c → x.log[c.entry.index - 1]? = some c.entry →
      y.log[c.entry.index - 1]? = some c.entry)
    (hi : ∀ c ∈ y.calls, c.resolved = true → c.entry.index ≤ x.commitIndex →
      c.entry.index ≤ y.commitIndex) : Accounted y where
  call_lt c hm := (h.call_lt c (hc c hm)).trans_le hf
  pending_lt i f hi := (h.pending_lt i f (hp i f hi)).trans_le hf
  index c hm i hi := h.index c (hc c hm) i (hp i _ hi)
  pos c hm := h.pos c (hc c hm)
  inLog c hm hs := by
    have hs : x.Stands c := hs.imp_right (hp _ _)
    exact hl c hm hs (h.inLog c (hc c hm) hs)
  committed c hm hr := hi c hm hr (h.committed c (hc c hm) hr)

theorem Accounted.of_same {y : RaftNode Id Addr Cmd} (h : Accounted x) (hc : y.calls = x.calls)
    (hp : y.pendingCommits = x.pendingCommits) (hf : y.fresh = x.fresh) (hl : y.log = x.log)
    (hi : y.commitIndex = x.commitIndex) : Accounted y := by
  refine h.of_frame (fun c hm => ?_) (fun i f hs => ?_) hf.ge (fun c _ _ hs => ?_) fun c _ _ hs => ?_
  · rwa [hc] at hm
  · rwa [hp] at hs
  · rwa [hl]
  · rwa [hi]

theorem Accounted.propose (h : Accounted x) (command : Command Id Cmd) (caller : Caller) :
    Accounted (x.propose command caller) := by
  by_cases hx : x.state = .leader
  · rw [propose_of_leader x hx]
    have hpending {i f : Nat}
        (hi : (x.pendingCommits.set (x.log.length + 1) x.fresh).get? i = some f) :
        i = x.log.length + 1 ∧ f = x.fresh ∨ x.pendingCommits.get? i = some f := by
      rw [Dict.get?_set] at hi
      split at hi
      · rename_i heq
        exact .inl ⟨heq.symm, (Option.some.inj hi).symm⟩
      · exact .inr hi
    have hold {c : ProposeCall Id Cmd} (hc : c ∈ x.calls) {i : Nat}
        (hi : (x.pendingCommits.set (x.log.length + 1) x.fresh).get? i = some c.future) :
        x.pendingCommits.get? i = some c.future := by
      cases hpending hi with
      | inl heq => exact absurd (h.call_lt c hc) heq.2.ge.not_gt
      | inr hi => exact hi
    have hnew {c : ProposeCall Id Cmd} (hc : c ∈ x.calls ++
        [{ future := x.fresh, entry := x.newEntry command, caller := caller }]) :
        c ∈ x.calls ∨
          c = { future := x.fresh, entry := x.newEntry command, caller := caller } := by
      simpa using hc
    constructor
    case call_lt =>
      intro c hc
      cases hnew hc with
      | inl hc => exact (h.call_lt c hc).trans (Nat.lt_succ_self _)
      | inr hc =>
        subst hc
        exact Nat.lt_succ_self _
    case pending_lt =>
      intro i f hi
      cases hpending hi with
      | inl heq => exact heq.2 ▸ Nat.lt_succ_self _
      | inr hi => exact (h.pending_lt i f hi).trans (Nat.lt_succ_self _)
    case index =>
      intro c hc i hi
      cases hnew hc with
      | inl hc => exact h.index c hc i (hold hc hi)
      | inr hc =>
        subst hc
        cases hpending hi with
        | inl heq => exact heq.1.symm
        | inr hi => exact absurd (h.pending_lt i _ hi) (lt_irrefl _)
    case pos =>
      intro c hc
      cases hnew hc with
      | inl hc => exact h.pos c hc
      | inr hc =>
        subst hc
        exact Nat.succ_pos _
    case inLog =>
      intro c hc hs
      cases hnew hc with
      | inl hc =>
        have hin := h.inLog c hc (hs.imp_right (hold hc))
        rwa [List.getElem?_append_left (List.getElem?_eq_some_iff.mp hin).1]
      | inr hc =>
        subst hc
        simp [newEntry]
    case committed =>
      intro c hc hr
      cases hnew hc with
      | inl hc => exact h.committed c hc hr
      | inr hc =>
        subst hc
        cases hr
  · rwa [propose_of_not_leader x hx]

variable [DecidableEq Addr]

theorem Accounted.becomeLeader (h : Accounted x) : Accounted x.becomeLeader :=
  Accounted.propose (x := { x with
      state := .leader
      currentLeader := some x.nodeId
      nextIndex := .ofKeys x.peers (x.log.length + 1)
      matchIndex := .ofKeys x.peers 0 })
    (h.of_same rfl rfl rfl rfl rfl) _ _

omit [DecidableEq Addr] in
theorem Accounted.resolvePending {idx : Nat} (h : Accounted x) (hi : x.commitIndex ≤ idx) :
    Accounted (RaftNode.resolvePending { x with commitIndex := idx } idx) := by
  have hcall {c : ProposeCall Id Cmd}
      (hc : c ∈ (RaftNode.resolvePending { x with commitIndex := idx } idx).calls) :
      c ∈ x.calls ∨ ∃ d ∈ x.calls, c = { d with resolved := true } ∧ d.entry.index ≤ idx ∧
        x.pendingCommits.get? d.entry.index = some d.future := by
    obtain ⟨d, hd, hdc⟩ := List.mem_map.mp hc
    split at hdc
    · rename_i hp
      obtain ⟨⟨i, f⟩, he, hf⟩ := List.mem_map.mp hp
      have hget := Dict.get?_eq_some.mpr he
      rw [Dict.get?_filterKeys] at hget
      split at hget
      · rename_i hle
        dsimp only at hf hget
        rw [hf] at hget
        have hidx := h.index d hd i hget
        refine .inr ⟨d, hd, hdc.symm, ?_, hidx ▸ hget⟩
        rw [hidx]
        exact of_decide_eq_true hle
      · cases hget
    · exact .inl (hdc ▸ hd)
  have hpending {i f : Nat}
      (hi : (RaftNode.resolvePending { x with commitIndex := idx } idx).pendingCommits.get? i =
        some f) : x.pendingCommits.get? i = some f := by
    simp only [RaftNode.resolvePending, Dict.get?_filterKeys] at hi
    split at hi
    · exact hi
    · cases hi
  constructor
  case call_lt =>
    intro c hc
    cases hcall hc with
    | inl hc => exact h.call_lt c hc
    | inr hc =>
      obtain ⟨d, hd, rfl, -⟩ := hc
      exact h.call_lt d hd
  case pending_lt => exact fun i f hi => h.pending_lt i f (hpending hi)
  case index =>
    intro c hc i hi
    cases hcall hc with
    | inl hc => exact h.index c hc i (hpending hi)
    | inr hc =>
      obtain ⟨d, hd, rfl, -⟩ := hc
      exact h.index d hd i (hpending hi)
  case pos =>
    intro c hc
    cases hcall hc with
    | inl hc => exact h.pos c hc
    | inr hc =>
      obtain ⟨d, hd, rfl, -⟩ := hc
      exact h.pos d hd
  case inLog =>
    intro c hc hs
    cases hcall hc with
    | inl hc => exact h.inLog c hc (hs.imp_right hpending)
    | inr hc =>
      obtain ⟨d, hd, rfl, -, hget⟩ := hc
      exact h.inLog d hd (.inr hget)
  case committed =>
    intro c hc hr
    cases hcall hc with
    | inl hc => exact (h.committed c hc hr).trans hi
    | inr hc =>
      obtain ⟨d, -, rfl, hle, -⟩ := hc
      exact hle

theorem Accounted.advanceCommitIndex (h : Accounted x) : Accounted x.advanceCommitIndex := by
  cases advanceCommitIndex_cases x with
  | inl he => rwa [he]
  | inr hi =>
    obtain ⟨i, hi, he⟩ := hi
    rw [he]
    exact h.resolvePending (commitScan_eq_some x hi).1.le

omit [DecidableEq Addr] in
theorem Accounted.dropCall (h : Accounted x) (c : ProposeCall Id Cmd) (k : Nat) :
    Accounted (x.dropCall c k) := by
  refine h.of_frame (fun d hd => List.mem_of_mem_eraseIdx hd) (fun i f hi => ?_) le_rfl
    (fun d _ _ hin => hin) fun d _ _ hle => hle
  simp only [RaftNode.dropCall] at hi
  split at hi
  · exact hi
  · rw [Dict.get?_erase] at hi
    split at hi
    · cases hi
    · exact hi

omit [DecidableEq Addr] in
theorem Accounted.finishPropose (h : Accounted x) (c : ProposeCall Id Cmd) (k : Nat) :
    Accounted (x.finishPropose c k) := by
  have hd := h.dropCall c k
  cases finishPropose_cases x c k with
  | inl he =>
    rw [he.2]
    exact hd.of_frame (fun _ hm => hm) (fun _ _ hi => hi) (Nat.le_succ _)
      (fun _ _ _ hin => hin) fun _ _ _ hle => hle
  | inr he => rwa [he.2]

variable [DecidableEq Id]

omit [DecidableEq Addr] in
theorem Accounted.handleVoteRequest (h : Accounted x) (req : VoteRequest Id) :
    Accounted (x.handleVoteRequest req).1 := by
  obtain ⟨T, vote, state, hb, -, he⟩ := handleVoteRequest_frame x req
  rw [he]
  exact h.of_same rfl rfl rfl rfl rfl

theorem Accounted.handleVoteResponse (h : Accounted x) (resp : VoteResponse Id) :
    Accounted (x.handleVoteResponse resp) := by
  have hrec : Accounted (x.recordVote resp.voterId) := h.of_same rfl rfl rfl rfl rfl
  rcases handleVoteResponse_cases x resp with he | ⟨-, -, he⟩ | ⟨-, -, -, he | ⟨-, he⟩⟩
  · rwa [he]
  · rw [he]
    exact h.of_same rfl rfl rfl rfl rfl
  · rwa [he]
  · rw [he]
    exact hrec.becomeLeader

omit [DecidableEq Id] in
theorem Accounted.handleAppendEntriesResponse (h : Accounted x) (peer : Addr)
    (resp : AppendResponse) (sent next : Nat) :
    Accounted (x.handleAppendEntriesResponse peer resp sent next) := by
  have hrec : Accounted (x.recordMatch peer (next - 1 + sent)) := h.of_same rfl rfl rfl rfl rfl
  rcases handleAppendEntriesResponse_cases x peer resp sent next with
    ⟨-, he⟩ | he | ⟨-, -, -, he⟩ | ⟨-, -, -, he⟩
  · rw [he]
    exact h.of_same rfl rfl rfl rfl rfl
  · rwa [he]
  · rw [he]
    exact hrec.advanceCommitIndex
  · rw [he]
    exact h.of_same rfl rfl rfl rfl rfl

omit [DecidableEq Addr] [DecidableEq Id] in
theorem RaftNode.AppendOutcome.getElem?_of_cutAt {req : AppendRequest Id Cmd}
    {log : List (LogEntry Id Cmd)} {commit : Nat} {ok : Bool}
    (h : x.AppendOutcome req log commit ok) (ht : x.currentTerm ≤ req.term) {i : Nat}
    {e : LogEntry Id Cmd} (hi : x.log[i]? = some e) (hcut : ∀ j ∈ x.cutAt req, i < j) :
    log[i]? = some e := by
  have hlt : i < x.log.length := (List.getElem?_eq_some_iff.mp hi).1
  have htake {j : Nat} (hj : i < j) : (x.log.take j)[i]? = some e := by
    rwa [List.getElem?_take_of_lt hj]
  have hkeep {l : List (LogEntry Id Cmd)} (hp : l <+: log) (hl : l[i]? = some e) :
      log[i]? = some e := by
    obtain ⟨hil, he⟩ := List.getElem?_eq_some_iff.mp hl
    rw [← he, hp.getElem hil, List.getElem?_eq_getElem]
  cases h with
  | short h => exact hi
  | mismatch hp hl hm =>
    refine htake (hcut _ ?_)
    simp [cutAt, ht.not_gt, hl.not_gt, hp, hm]
  | success hl hm =>
    have hc : x.cutAt req = cutPoint LogEntry.term x.log req.prevLogIndex req.entries := by
      have hne : ¬ (0 < req.prevLogIndex ∧
          x.log[req.prevLogIndex - 1]?.map LogEntry.term ≠ some req.prevLogTerm) :=
        fun hne => hne.2 (hm hne.1)
      rw [cutAt, if_neg (not_or.mpr ⟨ht.not_gt, hl.not_gt⟩), if_neg hne]
    cases hp : cutPoint LogEntry.term x.log req.prevLogIndex req.entries with
    | none => exact hkeep (prefix_splice_of_cutPoint_none hp) hi
    | some j => exact hkeep (take_prefix_splice_of_cutPoint hp) (htake (hcut j (hc.trans hp)))

omit [DecidableEq Addr] [DecidableEq Id] in
theorem Accounted.handleAppendEntries (h : Accounted x) (req : AppendRequest Id Cmd)
    (hcut : ∀ j ∈ x.cutAt req, ∀ c ∈ x.calls, x.Stands c → c.entry.index ≤ j) :
    Accounted (x.handleAppendEntries req).1 := by
  cases Nat.lt_or_ge req.term x.currentTerm with
  | inl hT => rwa [handleAppendEntries_old x hT]
  | inr hT =>
    obtain ⟨log, commit, ok, hout, he⟩ := handleAppendEntries_cases x hT
    rw [he]
    have hkeep (c : ProposeCall Id Cmd) (hc : c ∈ x.calls) (hs : x.Stands c) :
        log[c.entry.index - 1]? = some c.entry := by
      refine hout.getElem?_of_cutAt hT (h.inLog c hc hs) fun j hj => ?_
      have hle := hcut j hj c hc hs
      have hpos := h.pos c hc
      omega
    refine h.of_frame (fun c hc => hc) (fun i f hi => hi) le_rfl (fun c hc hs _ => hkeep c hc hs)
      fun c hc hr hle => ?_
    cases hout.commit_cases with
    | inl heq => exact hle.trans heq.ge
    | inr hmin =>
      obtain ⟨-, hlt, heq⟩ := hmin
      -- the commit index may fall, but not below what the shortened log still holds
      have hin := (List.getElem?_eq_some_iff.mp (hkeep c hc (.inl hr))).1
      have hpos := h.pos c hc
      show c.entry.index ≤ commit
      omega

end Handlers

variable [DecidableEq Id] [DecidableEq Addr]

theorem accounted_step {a : Action Id Cmd} (hs : (raft W Cmd).step s a = some t)
    (hg : KeepsProposals W s a) (h : ∀ n, Accounted (s.nodes n)) (n : Id) :
    Accounted (t.nodes n) := by
  have hsame {m : Id} {y : RaftNode Id Addr Cmd} {net : List (Rpc Id Addr Cmd)}
      {evs : List (Event Id Cmd)} (hy : Accounted y) : Accounted ((s.move m y net evs).nodes n) :=
    move_nodes (P := fun _ => Accounted) h hy n
  cases step_cases hs with
  | election m hx =>
    refine hsame ?_
    have hc : Accounted (s.nodes m).campaign := (h m).of_same rfl rfl rfl rfl rfl
    by_cases hp : (s.nodes m).peers = []
    · rw [startElection_alone _ hp]
      exact hc.becomeLeader
    · rwa [startElection_of_peers _ hp]
  | voteRequest k src peer req dst hk hd => exact hsame ((h dst).handleVoteRequest req)
  | voteResponse k src peer req resp hk => exact hsame ((h src).handleVoteResponse resp)
  | appendRequest k src origin peer req nextIdx dst hk hd =>
    refine hsame ((h dst).handleAppendEntries req (hg (dst, req) ?_))
    simp [appendRequestAt, hk, hd]
  | appendResponse k src origin peer req nextIdx resp hk ha =>
    exact hsame ((h src).handleAppendEntriesResponse _ _ _ _)
  | propose m command => exact hsame ((h m).propose _ _)
  | finish m k c hk => exact hsame ((h m).finishPropose c k)
  | _ => exact hsame ((h _).of_same rfl rfl rfl rfl rfl)

/-- A `propose` call that has just returned was suspended, and answers for its node as it is. -/
theorem returned_step {a : Action Id Cmd} (hs : (raft W Cmd).step s a = some t) {n : Id}
    {entry : LogEntry Id Cmd} {result : Bool} {log : List (LogEntry Id Cmd)} {commitIndex : Nat}
    (he : .returned n entry result log commitIndex ∈ t.history) :
    .returned n entry result log commitIndex ∈ s.history ∨
    ∃ c ∈ (s.nodes n).calls, entry = c.entry ∧ result = c.resolved ∧ log = (s.nodes n).log ∧
      commitIndex = (s.nodes n).commitIndex := by
  have hmove {m : Id} {y : RaftNode Id Addr Cmd} {net : List (Rpc Id Addr Cmd)}
      {evs : List (Event Id Cmd)} (he : .returned n entry result log commitIndex ∈
        (s.move m y net evs).history) : .returned n entry result log commitIndex ∈ evs ∨
          .returned n entry result log commitIndex ∈ s.history := by
    cases mem_move_history.mp he with
    | inl ho => cases ofLeader_of_mem_observe ho
    | inr he => exact he
  cases step_cases hs with
  | finish m k c hk =>
    cases hmove he with
    | inl he =>
      cases List.mem_singleton.mp he
      exact .inr ⟨c, List.mem_of_getElem? hk, rfl, rfl, rfl, rfl⟩
    | inr he => exact .inl he
  | voteRequest k src peer req dst hk hd =>
    refine .inl ((hmove he).resolve_left ?_)
    split <;> simp
  | appendRequest k src origin peer req nextIdx dst hk hd =>
    refine .inl ((hmove he).resolve_left ?_)
    split <;> simp
  | apply m hx =>
    refine .inl ((hmove he).resolve_left ?_)
    split <;> simp
  | _ => exact .inl ((hmove he).resolve_left (by simp))

theorem accounted_reach (h : (raft W Cmd).Reach (KeepsProposals W) s) (n : Id) :
    Accounted (s.nodes n) := by
  refine h.invariant (I := fun s => ∀ n, Accounted (s.nodes n)) (fun _ => ?_)
    (fun _ _ _ _ hi hg hs => accounted_step hs hg hi) n
  constructor
  case pending_lt => exact fun _ _ hi => by cases hi
  all_goals exact fun _ hc => by cases hc

theorem PromisesKept.step {a : Action Id Cmd} (hs : (raft W Cmd).step s a = some t)
    (ha : ∀ n, Accounted (s.nodes n)) (h : PromisesKept s.history) : PromisesKept t.history := by
  intro n entry log commitIndex he
  cases returned_step hs he with
  | inl he => exact h _ _ _ _ he
  | inr hc =>
    obtain ⟨c, hc, rfl, hr, rfl, rfl⟩ := hc
    exact ⟨(ha n).inLog c hc (.inl hr.symm), (ha n).committed c hc hr.symm⟩

/-- In runs that never cut what a future stands for, a proposal that succeeds is committed. -/
theorem promisesKept_of_keepsProposals (h : (raft W Cmd).Reach (KeepsProposals W) s) :
    PromisesKept s.history := by
  refine h.invariant (I := fun s => PromisesKept s.history) ?_
    fun _ _ _ hr hi _ hs => hi.step hs (accounted_reach hr)
  intro n entry log commitIndex he
  cases he

/-- Leader 0 commits its `no_op` with node 1, and the call that proposed it returns. -/
def firstPromise : List (Action (Fin 3) Nat) :=
  [.electionTimeout 0, .deliver 0, .deliver 0, .runTask 0 0, .runTask 0 0, .deliver 1, .deliver 1,
   .finishPropose 0 0]

theorem promisesKept_firstPromise :
    ∃ s, (raft (mesh 3) Nat).runIf (KeepsProposals (mesh 3)) (raft (mesh 3) Nat).init
        firstPromise = some s ∧
      .returned 0 ⟨1, 1, .noOp 0, none, 0⟩ true [⟨1, 1, .noOp 0, none, 0⟩] 1 ∈ s.history ∧
      PromisesKept s.history := by
  have hrun : ((raft (mesh 3) Nat).runIf (KeepsProposals (mesh 3)) (raft (mesh 3) Nat).init
      firstPromise).any (fun s => .returned 0 ⟨1, 1, .noOp 0, none, 0⟩ true
        [⟨1, 1, .noOp 0, none, 0⟩] 1 ∈ s.history) = true := by
    decide +kernel
  obtain ⟨s, hs, hl⟩ := (Option.any_eq_true ..).mp hrun
  exact ⟨s, hs, of_decide_eq_true hl,
    promisesKept_of_keepsProposals (System.Reach.init.runIf hs)⟩

/-- Leader 0 of term 1 proposes 7 and waits; leader 2 of term 2 replaces the entry by 9;
node 0 is elected again in term 3 and commits up to index 3, which resolves the old future. -/
def overwritten : List (Action (Fin 3) Nat) :=
  [.electionTimeout 0, .deliver 1, .deliver 1, .propose 0 7,
   .electionTimeout 2, .deliver 2, .deliver 2, .propose 2 9, .runTask 2 0, .runTask 2 1, .deliver 2,
   .electionTimeout 0, .deliver 3, .deliver 3, .runTask 0 0, .runTask 0 3, .deliver 4, .deliver 4,
   .finishPropose 0 1]

theorem not_promisesKept_overwritten :
    ∃ s, (raft (mesh 3) Nat).run (raft (mesh 3) Nat).init overwritten = some s ∧
      ElectionSafe s.history ∧ ¬ PromisesKept s.history := by
  have hrun : ((raft (mesh 3) Nat).run (raft (mesh 3) Nat).init overwritten).any (fun s =>
      ElectionSafe s.history ∧ .returned 0 ⟨1, 2, .client 7, none, 0⟩ true
        [⟨2, 1, .noOp 2, none, 0⟩, ⟨2, 2, .client 9, none, 0⟩, ⟨3, 3, .noOp 0, none, 0⟩] 3 ∈
          s.history) = true := by
    decide +kernel
  obtain ⟨s, hs, hl⟩ := (Option.any_eq_true ..).mp hrun
  obtain ⟨hsafe, hret⟩ := of_decide_eq_true hl
  exact ⟨s, hs, hsafe, fun h => absurd (h _ _ _ _ hret).1 (by decide)⟩

end DistSync.Raft
