import DistSync.Raft.Election
import DistSync.Raft.LogStep

/-! Log matching. With one leader a term, each term has one log that only grows:
its leader's. Every log of the cluster, and every log a request in flight was
built from, is traced by these. -/
namespace DistSync.Raft
open TermLog RaftNode
variable {Id Addr Cmd : Type} [DecidableEq Addr]
variable {W : Wiring Id Addr} {s t : Cluster Id Addr Cmd}

/-- `req` is the request for `prev_log_index` that a node with log `l` builds. -/
structure BuiltFrom (req : AppendRequest Id Cmd) (l : List (LogEntry Id Cmd)) : Prop where
  entries : req.entries = l.drop req.prevLogIndex
  prevTerm : req.prevLogTerm = if 0 < req.prevLogIndex ∧ req.prevLogIndex ≤ l.length then
    (l[req.prevLogIndex - 1]?.map LogEntry.term).getD 0 else 0

theorem builtFrom_appendRequest (x : RaftNode Id Addr Cmd) (peer : Addr) :
    BuiltFrom (x.appendRequest peer) x.log := ⟨rfl, rfl⟩

section Outcome
variable {x : RaftNode Id Addr Cmd} {req : AppendRequest Id Cmd}
  {l log p : List (LogEntry Id Cmd)} {commit : Nat}
omit [DecidableEq Addr]

/-- Where the request's previous entry agrees, it lies in the log the request was built from. -/
theorem BuiltFrom.take_prev (hb : BuiltFrom req l) (hpos : ∀ e ∈ x.log, 0 < e.term)
    (hm : Matching LogEntry.term x.log l)
    (ht : 0 < req.prevLogIndex →
      x.log[req.prevLogIndex - 1]?.map LogEntry.term = some req.prevLogTerm) :
    req.prevLogIndex ≤ l.length ∧ x.log.take req.prevLogIndex = l.take req.prevLogIndex := by
  cases Nat.eq_zero_or_pos req.prevLogIndex with
  | inl h0 => simp [h0]
  | inr h0 =>
    obtain ⟨e, he, het⟩ := Option.map_eq_some_iff.mp (ht h0)
    have hprev := hb.prevTerm
    split at hprev
    · rename_i hin
      have hi : req.prevLogIndex - 1 < l.length := by omega
      rw [List.getElem?_eq_getElem hi] at hprev
      have hmt := hm (req.prevLogIndex - 1) e _ he (List.getElem?_eq_getElem hi)
        (het.trans hprev)
      rw [Nat.sub_add_cancel h0] at hmt
      exact ⟨hin.2, hmt⟩
    · have hep := hpos e (List.mem_of_getElem? he)
      omega

theorem RaftNode.AppendOutcome.installs (h : x.AppendOutcome req log commit true)
    (hb : BuiltFrom req l) (hpos : ∀ e ∈ x.log, 0 < e.term)
    (hm : Matching LogEntry.term x.log l) :
    req.prevLogIndex ≤ l.length ∧ (l <+: x.log ∧ log = x.log ∨ ¬ l <+: x.log ∧ log = l) := by
  cases h with
  | success hle ht =>
    obtain ⟨hl, htake⟩ := hb.take_prev hpos hm ht
    rw [hb.entries]
    exact ⟨hl, splice_eq (l.length - req.prevLogIndex) x.log req.prevLogIndex (by omega) hle
      htake hm⟩

/-- An agreed prefix, at least as long as the request's log or part of it, stays. -/
theorem RaftNode.AppendOutcome.keeps {ok : Bool} (h : x.AppendOutcome req log commit ok)
    (hb : BuiltFrom req l) (hprev : req.prevLogIndex ≤ l.length)
    (hpos : ∀ e ∈ x.log, 0 < e.term) (hm : Matching LogEntry.term x.log l) (hp : p <+: x.log)
    (hpl : p <+: l ∨ l <+: p) : p <+: log := by
  cases ok with
  | true =>
    cases (h.installs hb hpos hm).2 with
    | inl hc =>
      obtain ⟨-, rfl⟩ := hc
      exact hp
    | inr hc =>
      obtain ⟨hn, rfl⟩ := hc
      exact hpl.resolve_right fun hlp => hn (hlp.trans hp)
  | false =>
    cases h with
    | short hs => exact hp
    | mismatch h0 hl ht =>
      refine List.prefix_take_iff.mpr ⟨hp, ?_⟩
      by_contra hlen
      have hip : req.prevLogIndex - 1 < p.length := by omega
      have hil : req.prevLogIndex - 1 < l.length := by omega
      have hx : x.log[req.prevLogIndex - 1]? = some p[req.prevLogIndex - 1] := by
        rw [List.getElem?_eq_getElem (by omega), ← hp.getElem hip]
      have hpe : p[req.prevLogIndex - 1] = l[req.prevLogIndex - 1] := by
        cases hpl with
        | inl hpl => exact hpl.getElem hip
        | inr hlp => exact (hlp.getElem hil).symm
      refine ht ?_
      rw [hb.prevTerm, if_pos ⟨h0, hprev⟩, hx, List.getElem?_eq_getElem hil, hpe]
      rfl

theorem RaftNode.AppendOutcome.prefix_of_failed (h : x.AppendOutcome req log commit false) :
    log <+: x.log := by
  cases h with
  | short h => exact List.prefix_rfl
  | mismatch hp hl ht => exact List.take_prefix _ _

theorem RaftNode.AppendOutcome.commit_cases {ok : Bool} (h : x.AppendOutcome req log commit ok) :
    commit = x.commitIndex ∨ ok = true ∧ x.commitIndex < req.leaderCommit ∧
      commit = min req.leaderCommit log.length := by
  cases h with
  | short h => exact .inl rfl
  | mismatch hp hl ht => exact .inl rfl
  | success hl ht =>
    split
    · rename_i hlt
      exact .inr ⟨rfl, hlt, rfl⟩
    · exact .inl rfl

theorem RaftNode.AppendOutcome.traced {L : Nat → List (LogEntry Id Cmd)} {ok : Bool}
    (h : x.AppendOutcome req log commit ok) (hb : BuiltFrom req l)
    (hpos : ∀ e ∈ x.log, 0 < e.term) (hx : Traced LogEntry.term L x.log)
    (hl : Traced LogEntry.term L l) : Traced LogEntry.term L log := by
  cases ok with
  | true =>
    cases (h.installs hb hpos (hx.matching hl)).2 with
    | inl hc =>
      obtain ⟨-, rfl⟩ := hc
      exact hx
    | inr hc =>
      obtain ⟨-, rfl⟩ := hc
      exact hl
  | false => exact hx.of_isPrefix h.prefix_of_failed

end Outcome

structure LogInv (s : Cluster Id Addr Cmd) : Prop where
  leader : ∀ n, (s.nodes n).state = .leader →
    (s.nodes n).log = leaderLog s.history (s.nodes n).currentTerm ∧
      .appended n (s.nodes n).currentTerm (s.nodes n).log ∈ s.history ∧
      ∃ l, .becameLeader n (s.nodes n).currentTerm l ∈ s.history
  led : ∀ T, leaderLog s.history T ≠ [] → Led s.history T
  traced : ∀ n, Traced LogEntry.term (leaderLog s.history) (s.nodes n).log
  logs : ∀ T, Traced LogEntry.term (leaderLog s.history) (leaderLog s.history T)
  request : ∀ src origin peer req nextIdx reply, .append src origin peer req nextIdx reply ∈ s.net →
    ∃ l, Traced LogEntry.term (leaderLog s.history) l ∧ BuiltFrom req l

omit [DecidableEq Addr] in
theorem LogInv.pos (h : LogInv s) (hV : VoteInv W s) {l : List (LogEntry Id Cmd)}
    (hl : Traced LogEntry.term (leaderLog s.history) l) : ∀ e ∈ l, 0 < e.term := by
  intro e he
  obtain ⟨n, l', hn⟩ := h.led _ (hl.ne_nil he)
  exact hV.led_pos hn

omit [DecidableEq Addr] in
theorem LogInv.leaderLog_prefix (h : LogInv s) (hsafe : ElectionSafe t.history)
    (hold : ∀ e ∈ s.history, e ∈ t.history) {n : Id} {T : Nat} {log : List (LogEntry Id Cmd)}
    (hlog : (s.nodes n).log <+: log)
    (how : (s.nodes n).state = .leader ∧ T = (s.nodes n).currentTerm ∨
      (s.nodes n).state ≠ .leader ∧ (∀ l, .becameLeader n T l ∉ s.history) ∧
        .becameLeader n T (s.nodes n).log ∈ t.history) :
    leaderLog s.history T <+: log := by
  cases how with
  | inl how =>
    obtain ⟨hx, rfl⟩ := how
    rwa [← (h.leader n hx).1]
  | inr how =>
    obtain ⟨-, hno, hb⟩ := how
    have hnil : leaderLog s.history T = [] := by
      by_contra hne
      obtain ⟨m, l, hm⟩ := h.led _ hne
      obtain rfl := hsafe _ _ _ _ _ (hold _ hm) hb
      exact hno l hm
    rw [hnil]
    exact List.nil_prefix

omit [DecidableEq Addr] in
theorem LogInv.leaderLog_mono (h : LogInv s) (hstep : LogStep W s t)
    (hold : ∀ e ∈ s.history, e ∈ t.history) (hsafe : ElectionSafe t.history) (T : Nat) :
    leaderLog s.history T <+: leaderLog t.history T := by
  cases hstep with
  | keep log leads old logs commit => rw [logs]
  | accept dst src origin peer req nextIdx ok sent other leads newer term outcome old logs =>
    rw [logs]
  | lead n e other leads log term how appended old logs commit =>
    rw [logs]
    split
    · rename_i hT
      subst hT
      exact h.leaderLog_prefix hsafe hold (log ▸ List.prefix_append ..) how
    · exact List.prefix_rfl

omit [DecidableEq Addr] in
theorem LogInv.traced_step (h : LogInv s) (hV : VoteInv W s) (hstep : LogStep W s t)
    (hL : ∀ T, leaderLog s.history T <+: leaderLog t.history T) (n : Id) :
    Traced LogEntry.term (leaderLog t.history) (t.nodes n).log := by
  cases hstep with
  | keep log leads old logs commit =>
    rw [logs, log]
    exact h.traced n
  | lead m e other leads log term how appended old logs commit =>
    by_cases hn : n = m
    · subst hn
      rw [log]
      refine ((h.traced n).mono hL).append ?_
      rw [logs, if_pos term.symm, log]
    · rw [other n hn]
      exact (h.traced n).mono hL
  | accept dst src origin peer req nextIdx ok sent other leads newer term outcome old logs =>
    rw [logs]
    by_cases hn : n = dst
    · subst hn
      obtain ⟨l, hl, hb⟩ := h.request _ _ _ _ _ _ sent
      exact outcome.traced hb (h.pos hV (h.traced n)) (h.traced n) hl
    · rw [other n hn]
      exact h.traced n

omit [DecidableEq Addr] in
theorem LogInv.leader_step (h : LogInv s) (hstep : LogStep W s t)
    (hold : ∀ e ∈ s.history, e ∈ t.history) (hsafe : ElectionSafe t.history) (n : Id)
    (hn : (t.nodes n).state = .leader) :
    (t.nodes n).log = leaderLog t.history (t.nodes n).currentTerm ∧
      .appended n (t.nodes n).currentTerm (t.nodes n).log ∈ t.history ∧
      ∃ l, .becameLeader n (t.nodes n).currentTerm l ∈ t.history := by
  cases hstep with
  | keep log leads old logs commit =>
    obtain ⟨hx, hT⟩ := leads n hn
    obtain ⟨hl, happ, l, hb⟩ := h.leader n hx
    rw [log, hT, logs]
    exact ⟨hl, hold _ happ, l, hold _ hb⟩
  | lead m e other leads log term how appended old logs commit =>
    have hbecame : ∃ l, .becameLeader m (t.nodes m).currentTerm l ∈ t.history := by
      cases how with
      | inl how =>
        obtain ⟨hx, hT⟩ := how
        obtain ⟨-, -, l, hb⟩ := h.leader m hx
        exact ⟨l, hT ▸ hold _ hb⟩
      | inr how =>
        obtain ⟨-, -, hb⟩ := how
        exact ⟨_, hb⟩
    by_cases hnm : n = m
    · subst hnm
      rw [logs, if_pos rfl]
      exact ⟨rfl, appended, hbecame⟩
    · rw [other n hnm] at hn ⊢
      obtain ⟨hl, happ, l, hb⟩ := h.leader n hn
      refine ⟨?_, hold _ happ, l, hold _ hb⟩
      rw [logs, if_neg fun hT => ?_, hl]
      obtain ⟨l', hm⟩ := hbecame
      exact hnm (hsafe _ _ _ _ _ (hold _ hb) (hT ▸ hm))
  | accept dst src origin peer req nextIdx ok sent other leads newer term outcome old logs =>
    by_cases hnd : n = dst
    · subst hnd
      rw [leads] at hn
      cases hn
    · rw [other n hnd] at hn ⊢
      obtain ⟨hl, happ, l, hb⟩ := h.leader n hn
      rw [logs]
      exact ⟨hl, hold _ happ, l, hold _ hb⟩

variable [DecidableEq Id]

theorem LogInv.step (h : LogInv s) (hV : VoteInv W s) {a : Action Id Cmd}
    (hs : (raft W Cmd).step s a = some t) (hsafe : ElectionSafe t.history) : LogInv t := by
  obtain ⟨new, hnew⟩ := step_history hs
  have hold (e : Event Id Cmd) (he : e ∈ s.history) : e ∈ t.history :=
    hnew ▸ List.mem_append_right new he
  have hstep := logStep hV hs
  have hL := h.leaderLog_mono hstep hold hsafe
  have hleader := h.leader_step hstep hold hsafe
  have htraced := h.traced_step hV hstep hL
  refine ⟨hleader, fun T hT => ?_, htraced, fun T => ?_,
    fun src origin peer req nextIdx reply hm => ?_⟩
  · by_cases hnil : leaderLog s.history T = []
    · cases hstep with
      | keep log leads old logs commit => exact absurd (logs ▸ hnil) hT
      | accept dst src origin peer req nextIdx ok sent other leads newer term outcome old logs =>
        exact absurd (logs ▸ hnil) hT
      | lead m e other leads log term how appended old logs commit =>
        rw [logs] at hT
        split at hT
        · rename_i heq
          obtain ⟨-, -, l, hb⟩ := hleader m leads
          exact ⟨m, l, heq ▸ hb⟩
        · exact absurd hnil hT
    · obtain ⟨m, l, hm⟩ := h.led T hnil
      exact ⟨m, l, hold _ hm⟩
  · cases hstep with
    | keep log leads old logs commit => exact logs ▸ h.logs T
    | accept dst src origin peer req nextIdx ok sent other leads newer term outcome old logs =>
      exact logs ▸ h.logs T
    | lead m e other leads log term how appended old logs commit =>
      by_cases heq : (t.nodes m).currentTerm = T
      · rw [logs T, if_pos heq]
        exact htraced m
      · rw [logs T, if_neg heq]
        exact (h.logs T).mono hL
  · have hrequest (reply' : Option AppendResponse)
        (hm : .append src origin peer req nextIdx reply' ∈ s.net) :
        ∃ l, Traced LogEntry.term (leaderLog t.history) l ∧ BuiltFrom req l := by
      obtain ⟨l, hl, hb⟩ := h.request src origin peer req nextIdx reply' hm
      exact ⟨l, hl.mono hL, hb⟩
    rcases request_step hs hm with hm | ⟨dst, -, hm, -⟩ | ⟨-, hreq, -⟩
    · exact hrequest reply hm
    · exact hrequest none hm
    · exact ⟨_, (h.traced src).mono hL, hreq ▸ builtFrom_appendRequest ..⟩

theorem LogInv.init : LogInv (raft W Cmd).init where
  leader _ h := by cases h
  led _ h := absurd rfl h
  traced _ := .nil
  logs _ := .nil
  request _ _ _ _ _ _ h := by cases h

theorem LogInv.reach {guard : Cluster Id Addr Cmd → Action Id Cmd → Prop}
    (h : (raft W Cmd).Reach guard s) (hsafe : ElectionSafe s.history) : LogInv s :=
  h.invariant_of_past (H := fun s => ElectionSafe s.history)
    (fun _ _ _ hs ht => electionSafe_of_step hs ht) .init
    (fun _ _ _ hr ht hi hs => hi.step (.reach hr) hs ht) hsafe

/-- Log matching: entries of one term at one position have equal logs up to them. -/
theorem logMatching (h : (raft W Cmd).Reachable s) (hsafe : ElectionSafe s.history) (n m : Id) :
    Matching LogEntry.term (s.nodes n).log (s.nodes m).log :=
  have hi := LogInv.reach h hsafe
  (hi.traced n).matching (hi.traced m)

/-- Node 0 leads term 1 and its `no_op` reaches node 1. -/
def firstCopy : List (Action (Fin 3) Nat) :=
  [.electionTimeout 0, .deliver 0, .deliver 0, .runTask 0 0, .runTask 0 0, .deliver 1]

theorem logMatching_firstCopy :
    ∃ s, (raft (mesh 3) Nat).run (raft (mesh 3) Nat).init firstCopy = some s ∧
      (s.nodes 1).log = [⟨1, 1, .noOp 0, none, 0⟩] ∧
      Matching LogEntry.term (s.nodes 0).log (s.nodes 1).log := by
  have hrun : ((raft (mesh 3) Nat).run (raft (mesh 3) Nat).init firstCopy).any (fun s =>
      (s.nodes 1).log = [⟨1, 1, .noOp 0, none, 0⟩] ∧ ElectionSafe s.history) = true := by
    decide +kernel
  obtain ⟨s, hs, hl⟩ := (Option.any_eq_true ..).mp hrun
  obtain ⟨hlog, hsafe⟩ := of_decide_eq_true hl
  exact ⟨s, hs, hlog, logMatching (System.reachable_run hs) hsafe 0 1⟩

end DistSync.Raft
