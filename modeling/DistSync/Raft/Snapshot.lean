import DistSync.Raft.Replication
import DistSync.Raft.LogMatching

/-! Requests are snapshots. In a run where only leaders send and leaders count only
successes of their own term, a request in flight carries a prefix of the log of its
term that holds at least the log its sender was elected with. -/
namespace DistSync.Raft
open TermLog RaftNode
variable {Id Addr Cmd : Type} [DecidableEq Id] [DecidableEq Addr]
variable {W : Wiring Id Addr} {s t : Cluster Id Addr Cmd}

def OwnSuccesses (h : List (Event Id Cmd)) : Prop :=
  ∀ n T req resp, .gotResponse n .leader T req resp ∈ h → resp.success = true → req.term = T

/-- The sender of a request that succeeded is, if leader, still in the request's term. -/
def CountsOwnSuccesses (s : Cluster Id Addr Cmd) (a : Action Id Cmd) : Prop :=
  ∀ d ∈ successAt s a, (s.nodes d.1).state = .leader → d.2.term = (s.nodes d.1).currentTerm

instance (s : Cluster Id Addr Cmd) (a : Action Id Cmd) : Decidable (CountsOwnSuccesses s a) :=
  inferInstanceAs (Decidable (∀ d ∈ successAt s a, _))

theorem gotResponse_step {a : Action Id Cmd} (hs : (raft W Cmd).step s a = some t) {n : Id}
    {state : NodeState} {T : Nat} {req : AppendRequest Id Cmd} {resp : AppendResponse}
    (hm : .gotResponse n state T req resp ∈ t.history) :
    .gotResponse n state T req resp ∈ s.history ∨
      state = (s.nodes n).state ∧ T = (s.nodes n).currentTerm ∧
        (resp.success = true → successAt s a = some (n, req)) := by
  cases step_cases hs with
  | appendResponse k src origin peer req' nextIdx resp' hk ha =>
    rcases mem_move_history.mp hm with ho | he | h
    · cases ofLeader_of_mem_observe ho
    · cases List.mem_singleton.mp he
      exact .inr ⟨rfl, rfl, fun hok => by simp [successAt, hk, ha, hok]⟩
    · exact .inl h
  | _ =>
    rcases mem_move_history.mp hm with ho | he | h
    · cases ofLeader_of_mem_observe ho
    · first
      | cases he; done
      | split at he <;> simp at he
      | simp at he
    · exact .inl h

theorem OwnSuccesses.step (h : OwnSuccesses s.history) {a : Action Id Cmd}
    (ha : CountsOwnSuccesses s a) (hs : (raft W Cmd).step s a = some t) :
    OwnSuccesses t.history := by
  intro n T req resp hm hok
  cases gotResponse_step hs hm with
  | inl hm => exact h n T req resp hm hok
  | inr hc =>
    obtain ⟨hx, rfl, hat⟩ := hc
    exact ha (n, req) (hat hok) hx.symm

theorem OwnSuccesses.reach {guard : Cluster Id Addr Cmd → Action Id Cmd → Prop}
    (hg : ∀ s a, guard s a → CountsOwnSuccesses s a) (h : (raft W Cmd).Reach guard s) :
    OwnSuccesses s.history :=
  h.invariant (I := fun s => OwnSuccesses s.history) (fun _ _ _ _ h => by cases h)
    fun _ _ _ _ hi ha hs => hi.step (hg _ _ ha) hs

structure Disciplined (h : List (Event Id Cmd)) : Prop where
  elections : ElectionSafe h
  sends : OnlyLeadersSend h
  successes : OwnSuccesses h

theorem Disciplined.of_step {a : Action Id Cmd} (hs : (raft W Cmd).step s a = some t)
    (h : Disciplined t.history) : Disciplined s.history := by
  obtain ⟨new, hnew⟩ := step_history hs
  have hold (e : Event Id Cmd) (he : e ∈ s.history) : e ∈ t.history :=
    hnew ▸ List.mem_append_right new he
  exact ⟨electionSafe_of_step hs h.elections, fun n state T req hm => h.sends n state T req (hold _ hm),
    fun n T req resp hm => h.successes n T req resp (hold _ hm)⟩

/-- How the indices a leader `n` keeps for `p` come about in a step to `y`. -/
def IndexStep (s t : Cluster Id Addr Cmd) (p : Addr) (n : Id) (y : RaftNode Id Addr Cmd) : Prop :=
  y.state = .leader →
    (s.nodes n).state = .leader ∧ y.currentTerm = (s.nodes n).currentTerm ∧
      (y.matchIndexOf p = (s.nodes n).matchIndexOf p ∧
          y.nextIndexOf p ≤ max 1 ((s.nodes n).nextIndexOf p) ∨
        ∃ origin req nextIdx resp, .append n origin p req nextIdx (some resp) ∈ s.net ∧
          resp.success = true ∧
          .gotResponse n .leader (s.nodes n).currentTerm req resp ∈ t.history ∧
          y.matchIndexOf p = max ((s.nodes n).matchIndexOf p) (nextIdx - 1 + req.entries.length) ∧
          y.nextIndexOf p = nextIdx - 1 + req.entries.length + 1) ∨
    (s.nodes n).state ≠ .leader ∧ y.matchIndexOf p = 0 ∧
      y.nextIndexOf p ≤ (s.nodes n).log.length + 1

omit [DecidableEq Id] in
theorem IndexStep.of_same {n : Id} {y : RaftNode Id Addr Cmd} (p : Addr)
    (hy : y.toLeaderState = (s.nodes n).toLeaderState)
    (hlead : y.state = .leader →
      (s.nodes n).state = .leader ∧ y.currentTerm = (s.nodes n).currentTerm) :
    IndexStep s t p n y := by
  intro hn
  refine .inl ⟨(hlead hn).1, (hlead hn).2, .inl ⟨?_, ?_⟩⟩
  · simp only [matchIndexOf, hy]
  · simp only [nextIndexOf, hy]
    exact le_max_right _ _

omit [DecidableEq Id] in
theorem IndexStep.of_becomeLeader {n : Id} {x : RaftNode Id Addr Cmd} (p : Addr)
    (hlog : x.log = (s.nodes n).log) (hn : (s.nodes n).state ≠ .leader) :
    IndexStep s t p n x.becomeLeader := by
  refine fun _ => .inr ⟨hn, ?_, ?_⟩
  · rw [becomeLeader_eq, matchIndexOf, Dict.get?_ofKeys]
    split <;> rfl
  · rw [becomeLeader_eq, nextIndexOf, Dict.get?_ofKeys, ← hlog]
    split
    · exact le_rfl
    · exact Nat.le_add_left _ _

omit [DecidableEq Id] in
theorem IndexStep.of_response {n : Id} {p peer : Addr} {origin : Origin}
    {req : AppendRequest Id Cmd} {nextIdx : Nat} {resp : AppendResponse}
    (hnet : .append n origin peer req nextIdx (some resp) ∈ s.net)
    (hgot : .gotResponse n (s.nodes n).state (s.nodes n).currentTerm req resp ∈ t.history) :
    IndexStep s t p n
      ((s.nodes n).handleAppendEntriesResponse peer resp req.entries.length nextIdx) := by
  rcases handleAppendEntriesResponse_cases (s.nodes n) peer resp req.entries.length nextIdx with
    ⟨-, he⟩ | he | ⟨hx, -, hok, he⟩ | ⟨hx, -, -, he⟩ <;> rw [he]
  · exact .of_same p rfl fun hy => by cases hy
  · exact .of_same p rfl fun hy => ⟨hy, rfl⟩
  · have hrecord : IndexStep s t p n
        ((s.nodes n).recordMatch peer (nextIdx - 1 + req.entries.length)) := by
      refine fun _ => .inl ⟨hx, rfl, ?_⟩
      by_cases hp : peer = p
      · subst hp
        refine .inr ⟨origin, req, nextIdx, resp, hnet, hok, hx ▸ hgot, ?_, ?_⟩
        · simp [recordMatch, matchIndexOf]
        · simp [recordMatch, nextIndexOf]
      · refine .inl ⟨?_, ?_⟩
        · simp [recordMatch, matchIndexOf, Dict.get?_set, hp]
        · simp [recordMatch, nextIndexOf, Dict.get?_set, hp]
    rcases advanceCommitIndex_cases
      ((s.nodes n).recordMatch peer (nextIdx - 1 + req.entries.length)) with he | ⟨i, -, he⟩ <;>
      rw [he]
    · exact hrecord
    · exact fun hy => hrecord hy
  · refine fun _ => .inl ⟨hx, rfl, .inl ⟨rfl, ?_⟩⟩
    by_cases hp : peer = p
    · subst hp
      simp only [nextIndexOf, Dict.get?_set_self, Option.getD_some]
      omega
    · simp [nextIndexOf, Dict.get?_set, hp]

theorem indexStep {a : Action Id Cmd} (hs : (raft W Cmd).step s a = some t) (p : Addr) (n : Id) :
    IndexStep s t p n (t.nodes n) := by
  have hsame (m : Id) : IndexStep s t p m (s.nodes m) := .of_same p rfl fun hm => ⟨hm, rfl⟩
  cases step_cases hs with
  | election m hx =>
    refine move_nodes hsame ?_ n
    by_cases hp : (s.nodes m).peers = []
    · rw [startElection_alone _ hp]
      exact .of_becomeLeader p rfl hx
    · rw [startElection_of_peers _ hp]
      exact .of_same p rfl fun hy => by cases hy
  | voteRequest k src peer req dst hk hd =>
    refine move_nodes hsame ?_ n
    obtain ⟨T, vote, state, hb, ⟨rfl, rfl, rfl⟩ | ⟨-, -, rfl, rfl⟩, he⟩ :=
      handleVoteRequest_frame (s.nodes dst) req <;> rw [he]
    · exact .of_same p rfl fun hy => ⟨hy, rfl⟩
    · exact .of_same p rfl fun hy => by cases hy
  | voteResponse k src peer req resp hk =>
    refine move_nodes hsame ?_ n
    rcases handleVoteResponse_cases (s.nodes src) resp with
      he | ⟨-, -, he⟩ | ⟨hc, -, -, he | ⟨-, he⟩⟩ <;> rw [he]
    · exact .of_same p rfl fun hy => ⟨hy, rfl⟩
    · exact .of_same p rfl fun hy => by cases hy
    · exact .of_same p rfl fun hy => ⟨hy, rfl⟩
    · exact .of_becomeLeader p rfl (by simp [hc])
  | appendRequest k src origin peer req nextIdx dst hk hd =>
    refine move_nodes hsame ?_ n
    cases Nat.lt_or_ge req.term (s.nodes dst).currentTerm with
    | inl hT =>
      rw [handleAppendEntries_old _ hT]
      exact .of_same p rfl fun hy => ⟨hy, rfl⟩
    | inr hT =>
      obtain ⟨log, commit, ok, -, he⟩ := handleAppendEntries_cases (s.nodes dst) hT
      rw [he]
      exact .of_same p rfl fun hy => by cases hy
  | appendResponse k src origin peer req nextIdx resp hk ha =>
    refine move_nodes hsame ?_ n
    exact .of_response (List.mem_of_getElem? hk)
      (mem_move_history.mpr (.inr (.inl (List.mem_singleton_self _))))
  | propose m command =>
    refine move_nodes hsame ?_ n
    by_cases hx : (s.nodes m).state = .leader
    · rw [propose_of_leader _ hx]
      exact .of_same p rfl fun hy => ⟨hy, rfl⟩
    · rw [propose_of_not_leader _ hx]
      exact .of_same p rfl fun hy => ⟨hy, rfl⟩
  | finish m k c hk =>
    refine move_nodes hsame ?_ n
    rcases finishPropose_cases (s.nodes m) c k with ⟨-, he⟩ | ⟨-, he⟩ <;> rw [he] <;>
      exact .of_same p rfl fun hy => ⟨hy, rfl⟩
  | _ =>
    refine move_nodes hsame ?_ n
    exact .of_same p rfl fun hy => ⟨hy, rfl⟩

/-- The log from which a request that carries all later entries was built. -/
def snapshot (h : List (Event Id Cmd)) (req : AppendRequest Id Cmd) : List (LogEntry Id Cmd) :=
  (leaderLog h req.term).take (req.prevLogIndex + req.entries.length)

structure Snapshot (h : List (Event Id Cmd)) (src : Id) (req : AppendRequest Id Cmd)
    (nextIdx : Nat) : Prop where
  next : nextIdx - 1 = req.prevLogIndex
  length : req.prevLogIndex + req.entries.length ≤ (leaderLog h req.term).length
  built : BuiltFrom req (snapshot h req)
  led : ∃ l, .becameLeader src req.term l ∈ h
  elected : ∀ n l, .becameLeader n req.term l ∈ h → l <+: snapshot h req

omit [DecidableEq Id] in
theorem snapshot_isPrefix (h : List (Event Id Cmd)) (req : AppendRequest Id Cmd) :
    snapshot h req <+: leaderLog h req.term := List.take_prefix _ _

omit [DecidableEq Id] in
theorem Snapshot.length_eq {h : List (Event Id Cmd)} {src : Id} {req : AppendRequest Id Cmd}
    {nextIdx : Nat} (hs : Snapshot h src req nextIdx) :
    (snapshot h req).length = req.prevLogIndex + req.entries.length :=
  List.length_take_of_le hs.length

theorem take_of_isPrefix {α : Type} {l l' : List α} {k : Nat} (h : l <+: l') (hk : k ≤ l.length) :
    l'.take k = l.take k := by
  obtain ⟨r, rfl⟩ := h
  exact List.take_append_of_le_length hk

structure ReplicationInv (s : Cluster Id Addr Cmd) : Prop where
  bound : ∀ n, ∀ e ∈ (s.nodes n).log, e.term ≤ (s.nodes n).currentTerm
  logBound : ∀ T, ∀ e ∈ leaderLog s.history T, e.term ≤ T
  sorted : ∀ T, (leaderLog s.history T).Pairwise fun a b => a.term ≤ b.term
  elected : ∀ n T l, .becameLeader n T l ∈ s.history →
    l <+: leaderLog s.history T ∧ ∀ e ∈ l, e.term < T
  request : ∀ src origin peer req nextIdx reply, .append src origin peer req nextIdx reply ∈ s.net →
    Snapshot s.history src req nextIdx
  next : ∀ n, (s.nodes n).state = .leader →
    ∀ p, (s.nodes n).nextIndexOf p ≤ (s.nodes n).log.length + 1

structure Stage (W : Wiring Id Addr) (s t : Cluster Id Addr Cmd) : Prop where
  votes : VoteInv W s
  votes' : VoteInv W t
  logs : LogInv s
  logs' : LogInv t
  safe : Disciplined t.history
  step : LogStep W s t
  old : ∀ e ∈ s.history, e ∈ t.history
  mono : ∀ T, leaderLog s.history T <+: leaderLog t.history T
  term : ∀ n, (s.nodes n).currentTerm ≤ (t.nodes n).currentTerm

theorem Stage.of_reach {guard : Cluster Id Addr Cmd → Action Id Cmd → Prop}
    (hr : (raft W Cmd).Reach guard s) {a : Action Id Cmd}
    (hs : (raft W Cmd).step s a = some t) (h : Disciplined t.history) : Stage W s t := by
  obtain ⟨new, hnew⟩ := step_history hs
  have hold (e : Event Id Cmd) (he : e ∈ s.history) : e ∈ t.history :=
    hnew ▸ List.mem_append_right new he
  have hV := VoteInv.reach hr
  have hL := LogInv.reach hr (h.of_step hs).elections
  have hstep := logStep hV hs
  exact ⟨hV, hV.step hs, hL, hL.step hV hs h.elections, h, hstep, hold,
    hL.leaderLog_mono hstep hold h.elections, term_step hs⟩

namespace Stage
variable (g : Stage W s t)
omit [DecidableEq Addr]
include g

omit [DecidableEq Id] in
theorem elected {n : Id} {T : Nat} {l : List (LogEntry Id Cmd)}
    (hb : .becameLeader n T l ∈ t.history) : .becameLeader n T l ∈ s.history ∨
      l = (s.nodes n).log ∧ T = (t.nodes n).currentTerm ∧ ¬ Led s.history T ∧
        l <+: leaderLog t.history T := by
  cases g.step with
  | keep log leads old logs commit => exact .inl (old _ hb rfl)
  | accept dst src origin peer req nextIdx ok sent other leads newer term outcome old logs =>
    cases old _ hb rfl with
    | inl hs => exact .inl hs
    | inr hc =>
      obtain ⟨-, he⟩ := hc
      cases he
  | lead m e other leads log term how appended old logs commit =>
    rcases old _ hb rfl with hs | he | ⟨hx, he⟩
    · exact .inl hs
    · cases he
    · cases he
      refine .inr ⟨rfl, rfl, ?_, ?_⟩
      · intro hx
        obtain ⟨m', l', hm⟩ := hx
        obtain rfl := g.safe.elections _ _ _ _ _ (g.old _ hm) hb
        cases how with
        | inl how =>
          obtain ⟨hl, -⟩ := how
          exact hx hl
        | inr how =>
          obtain ⟨-, hno, -⟩ := how
          exact hno l' hm
      · rw [logs, if_pos rfl, log]
        exact List.prefix_append _ _

theorem length_le {n : Id} (hn : (t.nodes n).state = .leader) :
    (s.nodes n).log.length ≤ (t.nodes n).log.length := by
  cases g.step with
  | keep log leads old logs commit => rw [log]
  | lead m e other leads log term how appended old logs commit =>
    by_cases hnm : n = m
    · subst hnm
      simp [log]
    · rw [other n hnm]
  | accept dst src origin peer req nextIdx ok sent other leads newer term outcome old logs =>
    by_cases hnd : n = dst
    · subst hnd
      rw [leads] at hn
      cases hn
    · rw [other n hnd]

omit [DecidableEq Id] in
theorem take_leaderLog {T k : Nat} (hk : k ≤ (leaderLog s.history T).length) :
    (leaderLog t.history T).take k = (leaderLog s.history T).take k :=
  take_of_isPrefix (g.mono T) hk

omit [DecidableEq Id] in
theorem snapshot {src : Id} {req : AppendRequest Id Cmd} {nextIdx : Nat}
    (h : Snapshot s.history src req nextIdx) : Snapshot t.history src req nextIdx := by
  have heq : Raft.snapshot t.history req = Raft.snapshot s.history req :=
    g.take_leaderLog h.length
  obtain ⟨l, hl⟩ := h.led
  refine ⟨h.next, h.length.trans (g.mono _).length_le, heq ▸ h.built, ⟨l, g.old _ hl⟩,
    fun n l' hn => ?_⟩
  rw [heq]
  cases g.elected hn with
  | inl hn => exact h.elected n l' hn
  | inr hc =>
    obtain ⟨-, -, hno, -⟩ := hc
    exact absurd ⟨src, l, hl⟩ hno

end Stage

omit [DecidableEq Id] in
theorem ReplicationInv.snapshot_eq (h : ReplicationInv s) (hL : LogInv s) {n : Id}
    (hn : (s.nodes n).state = .leader) (p : Addr) :
    Raft.snapshot s.history ((s.nodes n).appendRequest p) = (s.nodes n).log := by
  have hnext := h.next n hn p
  rw [Raft.snapshot, appendRequest, ← (hL.leader n hn).1]
  refine List.take_of_length_le ?_
  simp only [List.length_drop]
  omega

omit [DecidableEq Id] in
theorem ReplicationInv.snapshot (h : ReplicationInv s) (hL : LogInv s) {n : Id}
    (hn : (s.nodes n).state = .leader) (p : Addr) :
    Snapshot s.history n ((s.nodes n).appendRequest p) ((s.nodes n).nextIndexOf p) := by
  obtain ⟨hlog, -, l, hl⟩ := hL.leader n hn
  have hnext := h.next n hn p
  have hsnap := h.snapshot_eq hL hn p
  refine ⟨rfl, ?_, ?_, ⟨l, hl⟩, fun m l' hm => ?_⟩
  · simp only [appendRequest, ← hlog, List.length_drop]
    omega
  · rw [hsnap]
    exact builtFrom_appendRequest ..
  · rw [hsnap, hlog]
    exact (h.elected m _ l' hm).1

section Accept
variable {src dst : Id} {req : AppendRequest Id Cmd} {nextIdx commit : Nat}
  {log p : List (LogEntry Id Cmd)}
omit [DecidableEq Addr] [DecidableEq Id]

theorem LogInv.matching_snapshot (h : LogInv s) (req : AppendRequest Id Cmd) (n : Id) :
    Matching LogEntry.term (s.nodes n).log (snapshot s.history req) :=
  (h.traced n).matching ((h.logs req.term).of_isPrefix (snapshot_isPrefix ..))

theorem Snapshot.installs (hs : Snapshot s.history src req nextIdx) (hL : LogInv s)
    (hV : VoteInv W s) (h : (s.nodes dst).AppendOutcome req log commit true) :
    snapshot s.history req <+: (s.nodes dst).log ∧ log = (s.nodes dst).log ∨
      ¬ snapshot s.history req <+: (s.nodes dst).log ∧ log = snapshot s.history req :=
  (h.installs hs.built (hL.pos hV (hL.traced dst)) (hL.matching_snapshot req dst)).2

theorem Snapshot.keeps (hs : Snapshot s.history src req nextIdx) (hL : LogInv s)
    (hV : VoteInv W s) {ok : Bool} (h : (s.nodes dst).AppendOutcome req log commit ok)
    (hp : p <+: (s.nodes dst).log)
    (hpl : p <+: snapshot s.history req ∨ snapshot s.history req <+: p) : p <+: log := by
  refine h.keeps hs.built ?_ (hL.pos hV (hL.traced dst)) (hL.matching_snapshot req dst) hp hpl
  rw [hs.length_eq]
  exact Nat.le_add_right _ _

end Accept

section Step
variable (g : Stage W s t) (h : ReplicationInv s)
include g h

theorem ReplicationInv.bound_step (n : Id) (e : LogEntry Id Cmd) (he : e ∈ (t.nodes n).log) :
    e.term ≤ (t.nodes n).currentTerm := by
  have hbound {m : Id} (hm : e ∈ (s.nodes m).log) : e.term ≤ (t.nodes m).currentTerm :=
    (h.bound m e hm).trans (g.term m)
  cases g.step with
  | keep log leads old logs commit => exact hbound (log n ▸ he)
  | lead m e' other leads log term how appended old logs commit =>
    by_cases hnm : n = m
    · subst hnm
      rw [log, List.mem_append, List.mem_singleton] at he
      cases he with
      | inl he => exact hbound he
      | inr he =>
        subst he
        exact term.le
    · exact hbound (other n hnm ▸ he)
  | accept dst src origin peer req nextIdx ok sent other leads newer term outcome old logs =>
    by_cases hnd : n = dst
    · subst hnd
      cases ok with
      | false => exact hbound (outcome.prefix_of_failed.subset he)
      | true =>
        have hreq := h.request _ _ _ _ _ _ sent
        cases hreq.installs g.logs g.votes outcome with
        | inl hc =>
          obtain ⟨-, hlog⟩ := hc
          exact hbound (hlog ▸ he)
        | inr hc =>
          obtain ⟨-, hlog⟩ := hc
          rw [term]
          exact h.logBound req.term e ((snapshot_isPrefix ..).subset (hlog ▸ he))
    · exact hbound (other n hnd ▸ he)

theorem ReplicationInv.logBound_step (T : Nat) (e : LogEntry Id Cmd)
    (he : e ∈ leaderLog t.history T) : e.term ≤ T := by
  cases g.step with
  | keep log leads old logs commit => exact h.logBound T e (logs ▸ he)
  | accept dst src origin peer req nextIdx ok sent other leads newer term outcome old logs =>
    exact h.logBound T e (logs ▸ he)
  | lead m e' other leads log term how appended old logs commit =>
    rw [logs] at he
    split at he
    · rename_i hT
      exact hT ▸ h.bound_step g m e he
    · exact h.logBound T e he

omit [DecidableEq Id] in
theorem ReplicationInv.sorted_step (T : Nat) :
    (leaderLog t.history T).Pairwise fun a b => a.term ≤ b.term := by
  cases g.step with
  | keep log leads old logs commit => exact logs ▸ h.sorted T
  | accept dst src origin peer req nextIdx ok sent other leads newer term outcome old logs =>
    exact logs ▸ h.sorted T
  | lead m e other leads log term how appended old logs commit =>
    rw [logs]
    split
    · have hsorted : (s.nodes m).log.Pairwise fun a b => a.term ≤ b.term :=
        (g.logs.traced m).pairwise h.sorted
      rw [log, List.pairwise_append]
      refine ⟨hsorted, List.pairwise_singleton .., fun a ha b hb => ?_⟩
      rw [List.mem_singleton.mp hb, term]
      exact (h.bound m a ha).trans (g.term m)
    · exact h.sorted T

omit [DecidableEq Id] in
theorem ReplicationInv.elected_step (n : Id) (T : Nat) (l : List (LogEntry Id Cmd))
    (hb : .becameLeader n T l ∈ t.history) :
    l <+: leaderLog t.history T ∧ ∀ e ∈ l, e.term < T := by
  cases g.elected hb with
  | inl hs =>
    obtain ⟨hl, hlt⟩ := h.elected n T l hs
    exact ⟨hl.trans (g.mono T), hlt⟩
  | inr hc =>
    obtain ⟨rfl, rfl, hno, hl⟩ := hc
    refine ⟨hl, fun e he => lt_of_le_of_ne ((h.bound n e he).trans (g.term n)) fun heq => hno ?_⟩
    exact heq ▸ g.logs.led _ ((g.logs.traced n).ne_nil he)

theorem ReplicationInv.step {a : Action Id Cmd} (hs : (raft W Cmd).step s a = some t) :
    ReplicationInv t := by
  refine ⟨h.bound_step g, h.logBound_step g, h.sorted_step g, h.elected_step g,
    fun src origin peer req nextIdx reply hm => ?_, fun n hn p => ?_⟩
  · rcases request_step hs hm with hm | ⟨dst, -, hm, -⟩ | ⟨-, rfl, rfl, hsent⟩
    · exact g.snapshot (h.request _ _ _ _ _ _ hm)
    · exact g.snapshot (h.request _ _ _ _ _ _ hm)
    · exact g.snapshot (h.snapshot g.logs (g.safe.sends _ _ _ _ hsent).1 peer)
  · have hlen := g.length_le hn
    rcases indexStep hs p n hn with ⟨hx, hT, ⟨-, hle⟩ | ⟨origin, req, nextIdx, resp, hm, hok, hgot,
      -, he⟩⟩ | ⟨-, -, hle⟩
    · have hnext := h.next n hx p
      omega
    · have hreq := h.request _ _ _ _ _ _ hm
      have hcur := g.safe.successes _ _ _ _ hgot hok
      have hlog := (g.logs.leader n hx).1
      have hreqlen := hreq.length
      rw [hcur, ← hlog] at hreqlen
      rw [he, hreq.next]
      omega
    · omega

end Step

theorem ReplicationInv.init : ReplicationInv (raft W Cmd).init where
  bound _ _ h := by cases h
  logBound _ _ h := by cases h
  sorted _ := .nil
  elected _ _ _ h := by cases h
  request _ _ _ _ _ _ h := by cases h
  next _ h := by cases h

theorem ReplicationInv.reach {guard : Cluster Id Addr Cmd → Action Id Cmd → Prop}
    (h : (raft W Cmd).Reach guard s) (hd : Disciplined s.history) : ReplicationInv s :=
  h.invariant_of_past (H := fun s => Disciplined s.history)
    (fun _ _ _ hs ht => ht.of_step hs) .init
    (fun _ _ _ hr ht hi hs => hi.step (.of_reach hr hs ht) hs) hd

end DistSync.Raft
