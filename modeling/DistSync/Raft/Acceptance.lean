import DistSync.Raft.LogMatching

/-! What a follower makes of an accepted `append_entries`: its log ends with the sender's, and
what it commits for the sender's `leader_commit` is in the log the sender had. -/
namespace DistSync.Raft
open TermLog RaftNode
variable {Id Addr Cmd : Type} [DecidableEq Id] [DecidableEq Addr]
variable {W : Wiring Id Addr} {s t : Cluster Id Addr Cmd}

/-- From `x` to `y` a node took over the log `l`, or had it already, and commits by it. -/
structure RaftNode.Follows (x y : RaftNode Id Addr Cmd) (l : List (LogEntry Id Cmd)) : Prop where
  log : y.log = l ∨ y.log = x.log ∧ l <+: x.log
  monotone : x.commitIndex ≤ y.commitIndex
  committed : x.commitIndex < y.commitIndex → y.log.take y.commitIndex = l.take y.commitIndex

omit [DecidableEq Id] [DecidableEq Addr] in
/-- The sender's whole remaining log is in the request, so the log is as long as `l`
afterwards and `min` does not cut the sender's commit index. -/
theorem RaftNode.AppendOutcome.commit_of_installs {x : RaftNode Id Addr Cmd}
    {req : AppendRequest Id Cmd} {log l : List (LogEntry Id Cmd)} {commit : Nat}
    (h : x.AppendOutcome req log commit true) (hl : l <+: log)
    (hc : req.leaderCommit ≤ l.length) : commit = max x.commitIndex req.leaderCommit := by
  have hlen : l.length ≤ log.length := hl.length_le
  cases h with
  | success hle ht =>
    split
    · rename_i hgt
      rw [min_eq_left (hc.trans hlen), max_eq_right hgt.le]
    · rename_i hle
      rw [max_eq_left (not_lt.mp hle)]

omit [DecidableEq Id] [DecidableEq Addr] in
theorem handleAppendEntries_follows {x : RaftNode Id Addr Cmd} {req : AppendRequest Id Cmd}
    {l : List (LogEntry Id Cmd)} (hb : BuiltFrom req l) (hc : req.leaderCommit ≤ l.length)
    (hpos : ∀ e ∈ x.log, 0 < e.term) (hm : Matching LogEntry.term x.log l)
    (hok : (x.handleAppendEntries req).2.success = true) :
    x.Follows (x.handleAppendEntries req).1 l := by
  cases Nat.lt_or_ge req.term x.currentTerm with
  | inl hT =>
    rw [handleAppendEntries_old x hT] at hok
    cases hok
  | inr hT =>
    obtain ⟨log, commit, ok, ho, he⟩ := handleAppendEntries_cases x hT
    rw [he] at hok ⊢
    obtain rfl : ok = true := hok
    have hlog : log = l ∨ log = x.log ∧ l <+: x.log := by
      cases (ho.installs hb hpos hm).2 with
      | inl hkept => exact .inr hkept.symm
      | inr htaken => exact .inl htaken.2
    have hinit : l <+: log := by
      cases hlog with
      | inl htaken => exact htaken ▸ List.prefix_rfl
      | inr hkept => exact hkept.1 ▸ hkept.2
    have hcommit := ho.commit_of_installs hinit hc
    refine ⟨hlog, hcommit ▸ le_max_left .., fun hlt => ?_⟩
    have hraised : commit = req.leaderCommit := by
      have hlt : x.commitIndex < commit := hlt
      omega
    have hlen : (l.take req.leaderCommit).length = (log.take req.leaderCommit).length := by
      rw [List.length_take_of_le hc, List.length_take_of_le (hc.trans hinit.length_le)]
    change log.take commit = l.take commit
    rw [hraised]
    exact ((hinit.take _).eq_of_length hlen).symm

theorem leaderLog_run {as : List (Action Id Cmd)} (hr : (raft W Cmd).Reachable s)
    (ht : (raft W Cmd).run s as = some t) (hsafe : ElectionSafe t.history) :
    ElectionSafe s.history ∧ ∀ T, leaderLog s.history T <+: leaderLog t.history T := by
  induction as generalizing s with
  | nil =>
    cases ht
    exact ⟨hsafe, fun _ => List.prefix_rfl⟩
  | cons a as ih =>
    obtain ⟨u, hs, hu⟩ := Option.bind_eq_some_iff.mp ht
    obtain ⟨hsafeu, hL⟩ := ih (.step hr trivial hs) hu
    have hsafes := electionSafe_of_step hs hsafeu
    obtain ⟨new, hnew⟩ := step_history hs
    have hgrow := (LogInv.reach hr hsafes).leaderLog_mono (logStep (VoteInv.reach hr) hs)
      (fun e he => hnew ▸ List.mem_append_right new he) hsafeu
    exact ⟨hsafes, fun T => (hgrow T).trans (hL T)⟩

/-- In a run with one leader a term, a node that accepts what a sender built earlier from its
log ends with that log, or had it already, and commits only what is in it. -/
theorem accepted_follows_sender (W : Wiring Id Addr) {as bs : List (Action Id Cmd)}
    (hs : (raft W Cmd).run (raft W Cmd).init as = some s) (ht : (raft W Cmd).run s bs = some t)
    (hsafe : ElectionSafe t.history) (n m : Id) (peer : Addr)
    (hc : (s.nodes n).commitIndex ≤ (s.nodes n).log.length)
    (hok : ((t.nodes m).handleAppendEntries ((s.nodes n).appendRequest peer)).2.success = true) :
    (t.nodes m).Follows ((t.nodes m).handleAppendEntries ((s.nodes n).appendRequest peer)).1
      (s.nodes n).log := by
  have hr := System.reachable_run hs
  obtain ⟨hsafes, hL⟩ := leaderLog_run hr ht hsafe
  have hrt := hr.run (System.along_trivial _ _) ht
  have hi := LogInv.reach hrt hsafe
  have hl : Traced LogEntry.term (leaderLog t.history) (s.nodes n).log :=
    ((LogInv.reach hr hsafes).traced n).mono hL
  exact handleAppendEntries_follows (builtFrom_appendRequest _ _) hc
    (hi.pos (VoteInv.reach hrt) (hi.traced m)) ((hi.traced m).matching hl) hok

/-- Node 0 leads term 1 and has committed its `no_op`, which node 1 stores. -/
def committedNoOp : List (Action (Fin 3) Nat) :=
  [.electionTimeout 0, .deliver 0, .deliver 0, .runTask 0 0, .runTask 0 0, .deliver 1, .deliver 1]

theorem accepted_follows_sender_committedNoOp :
    ∃ s t, (raft (mesh 3) Nat).run (raft (mesh 3) Nat).init committedNoOp = some s ∧
      (raft (mesh 3) Nat).run s [.propose 0 7] = some t ∧
      ((t.nodes 2).handleAppendEntries ((s.nodes 0).appendRequest 2)).1.commitIndex = 1 ∧
      (t.nodes 2).Follows ((t.nodes 2).handleAppendEntries ((s.nodes 0).appendRequest 2)).1
        (s.nodes 0).log := by
  have hrun : ((raft (mesh 3) Nat).run (raft (mesh 3) Nat).init committedNoOp).any (fun s =>
      (s.nodes 0).commitIndex ≤ (s.nodes 0).log.length ∧
        ((raft (mesh 3) Nat).run s [.propose 0 7]).any (fun t =>
          ((t.nodes 2).handleAppendEntries ((s.nodes 0).appendRequest 2)).1.commitIndex = 1 ∧
            ((t.nodes 2).handleAppendEntries ((s.nodes 0).appendRequest 2)).2.success = true ∧
            ElectionSafe t.history) = true) = true := by
    decide +kernel
  obtain ⟨s, hs, hh⟩ := (Option.any_eq_true ..).mp hrun
  obtain ⟨hc, hrun'⟩ := of_decide_eq_true hh
  obtain ⟨t, ht, hh'⟩ := (Option.any_eq_true ..).mp hrun'
  obtain ⟨hcommit, hok, hsafe⟩ := of_decide_eq_true hh'
  exact ⟨s, t, hs, ht, hcommit, accepted_follows_sender (mesh 3) hs ht hsafe 0 2 2 hc hok⟩

end DistSync.Raft
