import DistSync.Raft.Votes

/-! What a step does to the logs, said once for the arguments that follow: it
keeps them, or a leader appends one entry, or a node accepts a request. -/
namespace DistSync.Raft
open TermLog RaftNode
variable {Id Addr Cmd : Type}
variable {W : Wiring Id Addr} {s t : Cluster Id Addr Cmd}

/-- The log which the leader of term `T` had when it last appended to it. -/
def leaderLog : List (Event Id Cmd) → Nat → List (LogEntry Id Cmd)
  | [], _ => []
  | .appended _ T' log :: h, T => if T' = T then log else leaderLog h T
  | _ :: h, T => leaderLog h T

theorem leaderLog_append {a : List (Event Id Cmd)} (ha : ∀ n T l, .appended n T l ∉ a)
    (h : List (Event Id Cmd)) : leaderLog (a ++ h) = leaderLog h := by
  induction a with
  | nil => rfl
  | cons e a ih =>
    have hrest := ih fun n T l hm => ha n T l (List.mem_cons_of_mem e hm)
    cases e with
    | appended n T l => exact absurd List.mem_cons_self (ha n T l)
    | _ => exact hrest

def Event.ofLog : Event Id Cmd → Bool
  | .becameLeader .. | .appended .. | .accepted .. => true
  | _ => false

inductive LogStep (W : Wiring Id Addr) (s t : Cluster Id Addr Cmd) : Prop
  | keep
    (log : ∀ m, (t.nodes m).log = (s.nodes m).log)
    (leads : ∀ m, (t.nodes m).state = .leader →
      (s.nodes m).state = .leader ∧ (t.nodes m).currentTerm = (s.nodes m).currentTerm)
    (old : ∀ e ∈ t.history, e.ofLog = true → e ∈ s.history)
    (logs : leaderLog t.history = leaderLog s.history)
    (commit : ∀ m, (t.nodes m).commitIndex = (s.nodes m).commitIndex ∨
      (s.nodes m).commitIndex < (t.nodes m).commitIndex ∧
      .committed m (t.nodes m).currentTerm (t.nodes m).commitIndex (t.nodes m).log ∈ t.history)
  | lead (n : Id) (e : LogEntry Id Cmd)
    (other : ∀ m, m ≠ n → t.nodes m = s.nodes m)
    (leads : (t.nodes n).state = .leader)
    (log : (t.nodes n).log = (s.nodes n).log ++ [e])
    (term : e.term = (t.nodes n).currentTerm)
    (how : (s.nodes n).state = .leader ∧ (t.nodes n).currentTerm = (s.nodes n).currentTerm ∨
      (s.nodes n).state ≠ .leader ∧
        (∀ l, .becameLeader n (t.nodes n).currentTerm l ∉ s.history) ∧
        .becameLeader n (t.nodes n).currentTerm (s.nodes n).log ∈ t.history)
    (appended : .appended n (t.nodes n).currentTerm (t.nodes n).log ∈ t.history)
    (old : ∀ e ∈ t.history, e.ofLog = true → e ∈ s.history ∨
      e = .appended n (t.nodes n).currentTerm (t.nodes n).log ∨
      (s.nodes n).state ≠ .leader ∧
        e = .becameLeader n (t.nodes n).currentTerm (s.nodes n).log)
    (logs : ∀ T, leaderLog t.history T =
      if (t.nodes n).currentTerm = T then (t.nodes n).log else leaderLog s.history T)
    (commit : (t.nodes n).commitIndex = (s.nodes n).commitIndex)
  | accept (dst : Id) (src : Id) (origin : Origin) (peer : Addr) (req : AppendRequest Id Cmd)
    (nextIdx : Nat) (ok : Bool)
    (sent : .append src origin peer req nextIdx none ∈ s.net)
    (other : ∀ m, m ≠ dst → t.nodes m = s.nodes m)
    (leads : (t.nodes dst).state = .follower)
    (newer : (s.nodes dst).currentTerm ≤ req.term)
    (term : (t.nodes dst).currentTerm = req.term)
    (outcome : (s.nodes dst).AppendOutcome req (t.nodes dst).log (t.nodes dst).commitIndex ok)
    (old : ∀ e ∈ t.history, e.ofLog = true → e ∈ s.history ∨
      ok = true ∧ e = .accepted dst req.term (req.prevLogIndex + req.entries.length))
    (logs : leaderLog t.history = leaderLog s.history)

section Move
variable {n : Id} {y : RaftNode Id Addr Cmd} {net : List (Rpc Id Addr Cmd)}
  {evs : List (Event Id Cmd)}

theorem observe_of_append {x : RaftNode Id Addr Cmd} (hy : y.state = .leader)
    (hlen : x.log.length < y.log.length) :
    ∃ a b, observe n x y = a ++ .appended n y.currentTerm y.log :: b ∧
      (∀ m T l, .appended m T l ∉ a) ∧ ∀ m T l, .appended m T l ∉ b := by
  refine ⟨if x.state = .leader ∧ y.state = .leader ∧ x.commitIndex < y.commitIndex then
      [.committed n y.currentTerm y.commitIndex y.log] else [],
    if x.state ≠ .leader ∧ y.state = .leader then [.becameLeader n y.currentTerm x.log] else [],
    ?_, ?_, ?_⟩
  · rw [observe, if_pos (And.intro hy hlen), List.append_assoc, List.singleton_append]
  · intro m T l
    split <;> simp
  · intro m T l
    split <;> simp

variable [DecidableEq Id]

theorem leaderLog_move_append (hy : y.state = .leader)
    (hlen : (s.nodes n).log.length < y.log.length) (hev : ∀ m T l, Event.appended m T l ∉ evs)
    (T : Nat) : leaderLog (s.move n y net evs).history T =
      if y.currentTerm = T then y.log else leaderLog s.history T := by
  obtain ⟨a, b, hobs, ha, hb⟩ := observe_of_append (n := n) hy hlen
  rw [move_history, hobs, List.append_assoc, List.append_assoc, leaderLog_append ha,
    List.cons_append, leaderLog, leaderLog_append hb, leaderLog_append hev]

omit [DecidableEq Id] in
theorem not_mem_observe_of_leads (hlead : y.state = .leader →
      (s.nodes n).state = .leader ∧ y.currentTerm = (s.nodes n).currentTerm)
    (hlog : y.state = .leader → y.log = (s.nodes n).log) {e : Event Id Cmd}
    (he : e.ofLog = true) : e ∉ observe n (s.nodes n) y := by
  intro hm
  cases e with
  | becameLeader m T l =>
    obtain ⟨-, -, -, hx, hy⟩ := mem_observe_becameLeader.mp hm
    exact hx (hlead hy).1
  | appended m T l =>
    obtain ⟨-, -, -, hy, hlt⟩ := mem_observe_appended.mp hm
    rw [hlog hy] at hlt
    exact lt_irrefl _ hlt
  | accepted v T k => cases ofLeader_of_mem_observe hm
  | _ => cases he

theorem LogStep.of_keep (hlog : y.log = (s.nodes n).log)
    (hlead : y.state = .leader →
      (s.nodes n).state = .leader ∧ y.currentTerm = (s.nodes n).currentTerm)
    (hev : ∀ e ∈ evs, e.ofLog = false)
    (hcommit : y.commitIndex = (s.nodes n).commitIndex ∨
      y.state = .leader ∧ (s.nodes n).commitIndex < y.commitIndex) :
    LogStep W s (s.move n y net evs) := by
  have hnew (e : Event Id Cmd) (he : e.ofLog = true) : e ∉ observe n (s.nodes n) y ++ evs := by
    intro hm
    cases List.mem_append.mp hm with
    | inl hm => exact not_mem_observe_of_leads hlead (fun _ => hlog) he hm
    | inr hm =>
      rw [hev e hm] at he
      cases he
  refine .keep (fun m => ?_) (fun m => ?_) (fun e hm he => ?_) ?_ (fun m => ?_)
  · by_cases hmn : m = n
    · subst hmn
      rwa [move_self]
    · rw [move_of_ne _ _ _ _ hmn]
  · by_cases hmn : m = n
    · subst hmn
      rwa [move_self]
    · rw [move_of_ne _ _ _ _ hmn]
      exact fun h => ⟨h, rfl⟩
  · exact (List.mem_append.mp hm).resolve_left (hnew e he)
  · exact leaderLog_append (fun m T l hm => hnew _ rfl hm) _
  · by_cases hmn : m = n
    · subst hmn
      rw [move_self]
      refine hcommit.imp_right fun ⟨hy, hlt⟩ => ⟨hlt, mem_move_history.mpr (.inl ?_)⟩
      exact mem_observe_committed.mpr ⟨rfl, rfl, rfl, rfl, (hlead hy).1, hy, hlt⟩
    · rw [move_of_ne _ _ _ _ hmn]
      exact .inl rfl

theorem LogStep.of_frame (hlog : y.log = (s.nodes n).log)
    (hT : y.currentTerm = (s.nodes n).currentTerm) (hs : y.state = (s.nodes n).state)
    (hc : y.commitIndex = (s.nodes n).commitIndex) (hev : ∀ e ∈ evs, e.ofLog = false) :
    LogStep W s (s.move n y net evs) :=
  .of_keep hlog (fun hy => ⟨hs ▸ hy, hT⟩) hev (.inl hc)

theorem LogStep.of_follower (hlog : y.log = (s.nodes n).log) (hs : y.state = .follower)
    (hc : y.commitIndex = (s.nodes n).commitIndex) (hev : ∀ e ∈ evs, e.ofLog = false) :
    LogStep W s (s.move n y net evs) :=
  .of_keep hlog (fun hy => by rw [hs] at hy; cases hy) hev (.inl hc)

theorem LogStep.of_lead {e : LogEntry Id Cmd} (hlog : y.log = (s.nodes n).log ++ [e])
    (he : e.term = y.currentTerm) (hy : y.state = .leader)
    (hlead : (s.nodes n).state = .leader ∧ y.currentTerm = (s.nodes n).currentTerm ∨
      (s.nodes n).state ≠ .leader ∧ ∀ l, .becameLeader n y.currentTerm l ∉ s.history)
    (hev : ∀ e ∈ evs, e.ofLog = false) (hc : y.commitIndex = (s.nodes n).commitIndex) :
    LogStep W s (s.move n y net evs) := by
  have hlen : (s.nodes n).log.length < y.log.length := by simp [hlog]
  refine .lead n e (fun m hm => move_of_ne _ _ _ _ hm) ?_ ?_ ?_ ?_ ?_ (fun e' hm he' => ?_) ?_ ?_
    <;> simp only [move_self]
  · exact hy
  · exact hlog
  · exact he
  · refine hlead.imp_right fun ⟨hx, hno⟩ => ⟨hx, hno, mem_move_history.mpr (.inl ?_)⟩
    exact mem_observe_becameLeader.mpr ⟨rfl, rfl, rfl, hx, hy⟩
  · exact mem_move_history.mpr (.inl (mem_observe_appended.mpr ⟨rfl, rfl, rfl, hy, hlen⟩))
  · rcases mem_move_history.mp hm with ho | hv | hs
    · cases e' with
      | becameLeader m T l =>
        obtain ⟨rfl, rfl, rfl, hx, -⟩ := mem_observe_becameLeader.mp ho
        exact .inr (.inr ⟨hx, rfl⟩)
      | appended m T l =>
        obtain ⟨rfl, rfl, rfl, -, -⟩ := mem_observe_appended.mp ho
        exact .inr (.inl rfl)
      | accepted v T k => cases ofLeader_of_mem_observe ho
      | _ => cases he'
    · rw [hev e' hv] at he'
      cases he'
    · exact .inl hs
  · refine leaderLog_move_append hy hlen fun m T l hm => ?_
    have hno := hev _ hm
    cases hno
  · exact hc

theorem LogStep.of_accept {dst src : Id} {origin : Origin} {peer : Addr}
    {req : AppendRequest Id Cmd} {nextIdx : Nat}
    (hnet : .append src origin peer req nextIdx none ∈ s.net)
    (hT : (s.nodes dst).currentTerm ≤ req.term) :
    LogStep W s (s.move dst ((s.nodes dst).handleAppendEntries req).1 net
      (if ((s.nodes dst).handleAppendEntries req).2.success then
        [.accepted dst req.term (req.prevLogIndex + req.entries.length)] else [])) := by
  obtain ⟨log, commit, ok, hout, he⟩ := handleAppendEntries_cases (s.nodes dst) hT
  have hy : ((s.nodes dst).handleAppendEntries req).1.state = .follower := by rw [he]; rfl
  have hno (e : Event Id Cmd) (hl : e.ofLog = true) :
      e ∉ observe dst (s.nodes dst) ((s.nodes dst).handleAppendEntries req).1 :=
    not_mem_observe_of_leads (fun h => by rw [hy] at h; cases h)
      (fun h => by rw [hy] at h; cases h) hl
  refine .accept dst src origin peer req nextIdx ok hnet (fun m hm => move_of_ne _ _ _ _ hm)
    ?_ hT ?_ ?_ (fun e hm hl => ?_) ?_
  · rwa [move_self]
  · rw [move_self, he]
    rfl
  · rwa [move_self, he]
  · rcases mem_move_history.mp hm with ho | hv | hs
    · exact absurd ho (hno e hl)
    · rw [he] at hv
      dsimp only at hv
      split at hv
      · rename_i hok
        exact .inr ⟨hok, List.mem_singleton.mp hv⟩
      · cases hv
    · exact .inl hs
  · rw [move_history, List.append_assoc, leaderLog_append fun m T l hm => hno _ rfl hm]
    refine leaderLog_append (fun m T l hm => ?_) _
    split at hm <;> simp at hm

end Move

variable [DecidableEq Addr] [DecidableEq Id]

theorem logStep (hV : VoteInv W s) {a : Action Id Cmd} (hs : (raft W Cmd).step s a = some t) :
    LogStep W s t := by
  cases step_cases hs with
  | election n hx =>
    by_cases hp : (s.nodes n).peers = []
    · rw [startElection_alone _ hp]
      refine .of_lead (becomeLeader_log _) rfl rfl (.inr ⟨hx, ?_⟩) (by simp [Event.ofLog]) rfl
      exact hV.not_led (.inl (Nat.lt_succ_self _))
    · rw [startElection_of_peers _ hp]
      exact .of_keep rfl (fun hy => by cases hy) (by simp [Event.ofLog]) (.inl rfl)
  | voteRequest k src peer req dst hk hd =>
    have hev (e : Event Id Cmd) (he : e ∈ if ((s.nodes dst).handleVoteRequest req).2.voteGranted
        then [.voted dst req.term req.candidateId (s.nodes dst).log] else []) :
        e.ofLog = false := by
      split at he
      · rw [List.mem_singleton.mp he]
        rfl
      · cases he
    obtain ⟨T, vote, state, hb, ⟨rfl, rfl, rfl⟩ | ⟨-, -, rfl, rfl⟩, he⟩ :=
      handleVoteRequest_frame (s.nodes dst) req
    · refine .of_frame ?_ ?_ ?_ ?_ hev <;> rw [he]
    · refine .of_follower ?_ ?_ ?_ hev <;> rw [he]
  | voteResponse k src peer req resp hk =>
    rcases handleVoteResponse_cases (s.nodes src) resp with
      he | ⟨-, -, he⟩ | ⟨hc, -, -, he | ⟨-, he⟩⟩ <;> rw [he]
    · exact .of_frame rfl rfl rfl rfl (by simp)
    · exact .of_follower rfl rfl rfl (by simp)
    · refine .of_frame ?_ ?_ ?_ ?_ (by simp) <;> rfl
    · have hx : (s.nodes src).state ≠ .leader := by simp [hc]
      exact .of_lead (becomeLeader_log _) rfl rfl (.inr ⟨hx, hV.not_led (.inr ⟨rfl, hc⟩)⟩)
        (by simp) rfl
  | appendRequest k src origin peer req nextIdx dst hk hd =>
    cases Nat.lt_or_ge req.term (s.nodes dst).currentTerm with
    | inl hT =>
      rw [handleAppendEntries_old _ hT]
      exact .of_frame rfl rfl rfl rfl (by simp)
    | inr hT => exact .of_accept (List.mem_of_getElem? hk) hT
  | appendResponse k src origin peer req nextIdx resp hk ha =>
    rcases handleAppendEntriesResponse_cases (s.nodes src) peer resp req.entries.length nextIdx
      with ⟨-, he⟩ | he | ⟨hx, -, -, he⟩ | ⟨-, -, -, he⟩ <;> rw [he]
    · exact .of_follower rfl rfl rfl (by simp [Event.ofLog])
    · exact .of_frame rfl rfl rfl rfl (by simp [Event.ofLog])
    · rcases advanceCommitIndex_cases ((s.nodes src).recordMatch peer
        (nextIdx - 1 + req.entries.length)) with he | ⟨i, hi, he⟩ <;> rw [he]
      · refine .of_frame ?_ ?_ ?_ ?_ (by simp [Event.ofLog]) <;> rfl
      · refine .of_keep rfl (fun hy => ⟨hy, rfl⟩) (by simp [Event.ofLog]) (.inr ⟨hx, ?_⟩)
        exact (commitScan_eq_some _ hi).1
    · refine .of_frame ?_ ?_ ?_ ?_ (by simp [Event.ofLog]) <;> rfl
  | send n k origin peer hk ha =>
    refine .of_frame ?_ ?_ ?_ ?_ (by simp [Event.ofLog]) <;> rfl
  | propose n command =>
    by_cases hx : (s.nodes n).state = .leader
    · rw [propose_of_leader _ hx]
      exact .of_lead rfl rfl hx (.inl ⟨hx, rfl⟩) (by simp) rfl
    · rw [propose_of_not_leader _ hx]
      exact .of_frame rfl rfl rfl rfl (by simp)
  | finish n k c hk =>
    rcases finishPropose_cases (s.nodes n) c k with ⟨-, he⟩ | ⟨-, he⟩ <;> rw [he] <;>
      refine .of_frame ?_ ?_ ?_ ?_ (by simp [Event.ofLog]) <;> rfl
  | apply n hx =>
    refine .of_frame ?_ ?_ ?_ ?_ fun e he => ?_
    · rfl
    · rfl
    · rfl
    · rfl
    · split at he
      · rw [List.mem_singleton.mp he]
        rfl
      · cases he
  | _ => refine .of_frame ?_ ?_ ?_ ?_ (by simp) <;> rfl

end DistSync.Raft
