import DistSync.Raft.Snapshot

/-! What a node once stored it keeps, unless a later leader was elected without it.
From this, what a leader's `match_index` says of a peer's log is true. -/
namespace DistSync.Raft
open TermLog RaftNode
variable {Id Addr Cmd : Type} [DecidableEq Addr]
variable {W : Wiring Id Addr} {s t : Cluster Id Addr Cmd}

/-- `v` held the first `k` entries of the log of term `T` while in that term. -/
def Stored (h : List (Event Id Cmd)) (v : Id) (T k : Nat) : Prop :=
  (∃ k', k ≤ k' ∧ .accepted v T k' ∈ h) ∨ ∃ log, .appended v T log ∈ h ∧ k ≤ log.length

def LostBefore (h : List (Event Id Cmd)) (p : List (LogEntry Id Cmd)) (T b : Nat) : Prop :=
  ∃ n T' l, T < T' ∧ T' < b ∧ .becameLeader n T' l ∈ h ∧ ¬ p <+: l

section History
variable {h h' : List (Event Id Cmd)} {v : Id} {T k b b' : Nat} {p : List (LogEntry Id Cmd)}

theorem Stored.mono (hs : Stored h v T k) (hh : ∀ e ∈ h, e ∈ h') : Stored h' v T k := by
  cases hs with
  | inl hs =>
    obtain ⟨k', hk, hm⟩ := hs
    exact .inl ⟨k', hk, hh _ hm⟩
  | inr hs =>
    obtain ⟨log, hm, hk⟩ := hs
    exact .inr ⟨log, hh _ hm, hk⟩

theorem Stored.le {j : Nat} (hs : Stored h v T k) (hj : j ≤ k) : Stored h v T j := by
  cases hs with
  | inl hs =>
    obtain ⟨k', hk, hm⟩ := hs
    exact .inl ⟨k', hj.trans hk, hm⟩
  | inr hs =>
    obtain ⟨log, hm, hk⟩ := hs
    exact .inr ⟨log, hm, hj.trans hk⟩

theorem LostBefore.mono (hl : LostBefore h p T b) (hh : ∀ e ∈ h, e ∈ h') (hb : b ≤ b') :
    LostBefore h' p T b' := by
  obtain ⟨n, T', l, hT, hlt, hm, hp⟩ := hl
  exact ⟨n, T', l, hT, hlt.trans_le hb, hh _ hm, hp⟩

end History

structure Retained (W : Wiring Id Addr) (s : Cluster Id Addr Cmd) : Prop where
  past : ∀ v T k, Stored s.history v T k →
    T ≤ (s.nodes v).currentTerm ∧ k ≤ (leaderLog s.history T).length
  kept : ∀ v T k, Stored s.history v T k →
    (leaderLog s.history T).take k <+: (s.nodes v).log ∨
      LostBefore s.history ((leaderLog s.history T).take k) T ((s.nodes v).currentTerm + 1)
  voted : ∀ v T' c lv, Timely s.history v T' c lv → ∀ T k, T < T' → Stored s.history v T k →
    (leaderLog s.history T).take k <+: lv ∨
      LostBefore s.history ((leaderLog s.history T).take k) T T'
  traced : ∀ v T c lv, .voted v T c lv ∈ s.history →
    Traced LogEntry.term (leaderLog s.history) lv
  acked : ∀ src origin peer req nextIdx resp,
    .append src origin peer req nextIdx (some resp) ∈ s.net → resp.success = true →
      ∃ v, W.route peer = some v ∧
        Stored s.history v req.term (req.prevLogIndex + req.entries.length)
  matched : ∀ n, (s.nodes n).state = .leader → ∀ p, 0 < (s.nodes n).matchIndexOf p →
    ∃ v, W.route p = some v ∧
      Stored s.history v (s.nodes n).currentTerm ((s.nodes n).matchIndexOf p)

variable [DecidableEq Id]

theorem voted_step {a : Action Id Cmd} (hs : (raft W Cmd).step s a = some t) :
    ∃ new, t.history = new ++ s.history ∧ ∀ v T c l, .voted v T c l ∈ new →
      l = (s.nodes v).log ∧ T = (t.nodes v).currentTerm := by
  have hquiet {n : Id} {y : RaftNode Id Addr Cmd} {net : List (Rpc Id Addr Cmd)}
      {evs : List (Event Id Cmd)} (hev : ∀ v T c l, Event.voted v T c l ∉ evs) :
      ∃ new, (s.move n y net evs).history = new ++ s.history ∧ ∀ v T c l, .voted v T c l ∈ new →
        l = (s.nodes v).log ∧ T = ((s.move n y net evs).nodes v).currentTerm := by
    refine ⟨_, rfl, fun v T c l hm => ?_⟩
    cases List.mem_append.mp hm with
    | inl hm => exact absurd hm not_mem_observe_voted
    | inr hm => exact absurd hm (hev v T c l)
  cases step_cases hs with
  | election n hx =>
    refine ⟨_, rfl, fun v T c l hm => ?_⟩
    cases List.mem_singleton.mp ((List.mem_append.mp hm).resolve_left not_mem_observe_voted)
    refine ⟨rfl, ?_⟩
    rw [move_self]
    by_cases hp : (s.nodes n).peers = []
    · rw [startElection_alone _ hp]
      rfl
    · rw [startElection_of_peers _ hp]
      rfl
  | voteRequest k src peer req dst hk hd =>
    refine ⟨_, rfl, fun v T c l hm => ?_⟩
    have hm := (List.mem_append.mp hm).resolve_left not_mem_observe_voted
    split at hm
    · rename_i hg
      cases List.mem_singleton.mp hm
      refine ⟨rfl, ?_⟩
      rw [move_self]
      exact (handleVoteRequest_of_grants _ ((handleVoteRequest_granted _ _).mp hg)).1.symm
    · cases hm
  | appendRequest k src origin peer req nextIdx dst hk hd =>
    refine hquiet fun v T c l hm => ?_
    split at hm <;> simp at hm
  | apply n hx =>
    refine hquiet fun v T c l hm => ?_
    split at hm <;> simp at hm
  | _ => exact hquiet (by simp)

omit [DecidableEq Id] in
theorem timely_append {a h : List (Event Id Cmd)} {v c : Id} {T : Nat}
    {lv : List (LogEntry Id Cmd)} (ht : Timely (a ++ h) v T c lv) :
    Timely h v T c lv ∨ .voted v T c lv ∈ a ∧ ¬ Led h T := by
  obtain ⟨newer, older, heq, hno⟩ := ht
  cases List.append_eq_append_iff.mp heq with
  | inl hc =>
    obtain ⟨r, rfl, hr⟩ := hc
    exact .inl ⟨r, older, hr, hno⟩
  | inr hc =>
    obtain ⟨r, rfl, hr⟩ := hc
    cases r with
    | nil => exact .inl ⟨[], older, hr.symm, hno⟩
    | cons e r =>
      obtain ⟨rfl, rfl⟩ := List.cons.inj hr
      refine .inr ⟨by simp, fun ⟨m, l, hm⟩ => hno m l (List.mem_append_right r hm)⟩

section Step
variable (g : Stage W s t) (hR : ReplicationInv s)
include g hR

omit [DecidableEq Id] in
theorem stored_step {v : Id} {T k : Nat} (h : Stored t.history v T k) :
    Stored s.history v T k ∨ T = (t.nodes v).currentTerm ∧
      k ≤ (leaderLog t.history T).length ∧
      (leaderLog t.history T).take k <+: (t.nodes v).log := by
  cases g.step with
  | keep log leads old logs commit =>
    cases h with
    | inl h =>
      obtain ⟨k', hk, hm⟩ := h
      exact .inl (.inl ⟨k', hk, old _ hm rfl⟩)
    | inr h =>
      obtain ⟨l, hm, hk⟩ := h
      exact .inl (.inr ⟨l, old _ hm rfl, hk⟩)
  | lead m e other leads log term how appended old logs commit =>
    cases h with
    | inl h =>
      obtain ⟨k', hk, hm⟩ := h
      rcases old _ hm rfl with hm | hm | ⟨-, hm⟩
      · exact .inl (.inl ⟨k', hk, hm⟩)
      · cases hm
      · cases hm
    | inr h =>
      obtain ⟨l, hm, hk⟩ := h
      rcases old _ hm rfl with hm | hm | ⟨-, hm⟩
      · exact .inl (.inr ⟨l, hm, hk⟩)
      · cases hm
        rw [logs, if_pos rfl]
        exact .inr ⟨rfl, hk, List.take_prefix _ _⟩
      · cases hm
  | accept dst src origin peer req nextIdx ok sent other leads newer term outcome old logs =>
    cases h with
    | inl h =>
      obtain ⟨k', hk, hm⟩ := h
      cases old _ hm rfl with
      | inl hm => exact .inl (.inl ⟨k', hk, hm⟩)
      | inr hc =>
        obtain ⟨rfl, hm⟩ := hc
        cases hm
        have hreq := hR.request _ _ _ _ _ _ sent
        have hsnap : (leaderLog s.history req.term).take k <+: snapshot s.history req :=
          List.take_prefix_take_left hk
        rw [logs]
        refine .inr ⟨term.symm, hk.trans hreq.length, hsnap.trans ?_⟩
        cases hreq.installs g.logs g.votes outcome with
        | inl hc =>
          obtain ⟨hp, he⟩ := hc
          rwa [he]
        | inr hc =>
          obtain ⟨-, he⟩ := hc
          rw [he]
    | inr h =>
      obtain ⟨l, hm, hk⟩ := h
      cases old _ hm rfl with
      | inl hm => exact .inl (.inr ⟨l, hm, hk⟩)
      | inr hc =>
        obtain ⟨-, hm⟩ := hc
        cases hm

/-- A prefix of the log of term `T` outlives the step, or a later leader lacks it. -/
theorem kept_step {v : Id} {T k : Nat} (hT : T ≤ (s.nodes v).currentTerm)
    (hp : (leaderLog s.history T).take k <+: (s.nodes v).log) :
    (leaderLog s.history T).take k <+: (t.nodes v).log ∨
      LostBefore t.history ((leaderLog s.history T).take k) T ((t.nodes v).currentTerm + 1) := by
  cases g.step with
  | keep log leads old logs commit =>
    rw [log]
    exact .inl hp
  | lead m e other leads log term how appended old logs commit =>
    by_cases hvm : v = m
    · subst hvm
      rw [log]
      exact .inl (hp.trans (List.prefix_append _ _))
    · rw [other v hvm]
      exact .inl hp
  | accept dst src origin peer req nextIdx ok sent other leads newer term outcome old logs =>
    by_cases hvd : v = dst
    · subst hvd
      have hreq := hR.request _ _ _ _ _ _ sent
      cases eq_or_lt_of_le (hT.trans newer) with
      | inl heq =>
        refine .inl (hreq.keeps g.logs g.votes outcome hp ?_)
        rw [heq]
        exact List.prefix_or_prefix_of_prefix (List.take_prefix _ _) (snapshot_isPrefix ..)
      | inr hlt =>
        obtain ⟨l, hl⟩ := hreq.led
        by_cases hpl : (leaderLog s.history T).take k <+: l
        · exact .inl (hreq.keeps g.logs g.votes outcome hp (.inl (hpl.trans (hreq.elected _ _ hl))))
        · exact .inr ⟨src, req.term, l, hlt, by omega, g.old _ hl, hpl⟩
    · rw [other v hvd]
      exact .inl hp

end Step

omit [DecidableEq Id] in
theorem Retained.take_eq (h : Retained W s) (g : Stage W s t) {v : Id} {T k : Nat}
    (hs : Stored s.history v T k) :
    (leaderLog t.history T).take k = (leaderLog s.history T).take k :=
  g.take_leaderLog (h.past v T k hs).2

theorem Retained.kept_step (h : Retained W s) (g : Stage W s t) (hR : ReplicationInv s) (v : Id)
    (T k : Nat) (hs : Stored t.history v T k) :
    (leaderLog t.history T).take k <+: (t.nodes v).log ∨
      LostBefore t.history ((leaderLog t.history T).take k) T ((t.nodes v).currentTerm + 1) := by
  cases stored_step g hR hs with
  | inl hs =>
    rw [h.take_eq g hs]
    cases h.kept v T k hs with
    | inl hp => exact Raft.kept_step g hR (h.past v T k hs).1 hp
    | inr hl => exact .inr (hl.mono g.old (Nat.succ_le_succ (g.term v)))
  | inr hc =>
    obtain ⟨-, -, hp⟩ := hc
    exact .inl hp

theorem Retained.voted_step (h : Retained W s) (g : Stage W s t) (hR : ReplicationInv s)
    {a : Action Id Cmd} (hs : (raft W Cmd).step s a = some t) (v : Id) (T' : Nat) (c : Id)
    (lv : List (LogEntry Id Cmd)) (ht : Timely t.history v T' c lv) (T k : Nat) (hT : T < T')
    (hk : Stored t.history v T k) :
    (leaderLog t.history T).take k <+: lv ∨
      LostBefore t.history ((leaderLog t.history T).take k) T T' := by
  have hcast : .voted v T' c lv ∈ t.history := by
    obtain ⟨newer, older, he, -⟩ := ht
    simp [he]
  cases stored_step g hR hk with
  | inl hk =>
    rw [h.take_eq g hk]
    obtain ⟨new, hnew, hvote⟩ := Raft.voted_step hs
    cases timely_append (hnew ▸ ht) with
    | inl ht => exact (h.voted v T' c lv ht T k hT hk).imp_right fun hl => hl.mono g.old le_rfl
    | inr hc =>
      obtain ⟨hm, hno⟩ := hc
      obtain ⟨rfl, hcur⟩ := hvote v T' c lv hm
      refine (h.kept v T k hk).imp_right fun ⟨n, T'', l, hlt, hle, hb, hp⟩ => ?_
      have hne : T'' ≠ T' := fun heq => hno (heq ▸ ⟨n, l, hb⟩)
      have hterm := g.term v
      exact ⟨n, T'', l, hlt, by omega, g.old _ hb, hp⟩
  | inr hc =>
    obtain ⟨hcur, -, -⟩ := hc
    have hpast := (g.votes'.past v T' c lv hcast).2
    omega

theorem Retained.matched_step (h : Retained W s) (g : Stage W s t) (hR : ReplicationInv s)
    {a : Action Id Cmd} (hs : (raft W Cmd).step s a = some t) (n : Id)
    (hn : (t.nodes n).state = .leader) (p : Addr) (hp : 0 < (t.nodes n).matchIndexOf p) :
    ∃ v, W.route p = some v ∧
      Stored t.history v (t.nodes n).currentTerm ((t.nodes n).matchIndexOf p) := by
  rcases indexStep hs p n hn with
    ⟨hx, hT, ⟨hm, -⟩ | ⟨origin, req, nextIdx, resp, hm, hok, hgot, he, -⟩⟩ | ⟨-, h0, -⟩
  · rw [hm] at hp ⊢
    obtain ⟨v, hv, hs⟩ := h.matched n hx p hp
    rw [hT]
    exact ⟨v, hv, hs.mono g.old⟩
  · have hreq := hR.request _ _ _ _ _ _ hm
    rw [he, hreq.next] at hp ⊢
    rw [hT]
    rcases le_total ((s.nodes n).matchIndexOf p) (req.prevLogIndex + req.entries.length)
      with hle | hle
    · rw [max_eq_right hle]
      obtain ⟨v, hv, hs⟩ := h.acked _ _ _ _ _ _ hm hok
      rw [g.safe.successes _ _ _ _ hgot hok] at hs
      exact ⟨v, hv, hs.mono g.old⟩
    · rw [max_eq_left hle] at hp ⊢
      obtain ⟨v, hv, hs⟩ := h.matched n hx p hp
      exact ⟨v, hv, hs.mono g.old⟩
  · omega

theorem Retained.step (h : Retained W s) (g : Stage W s t) (hR : ReplicationInv s)
    {a : Action Id Cmd} (hs : (raft W Cmd).step s a = some t) : Retained W t := by
  refine ⟨fun v T k hk => ?_, h.kept_step g hR, h.voted_step g hR hs,
    fun v T c lv hm => ?_, fun src origin peer req nextIdx resp hm hok => ?_,
    h.matched_step g hR hs⟩
  · cases stored_step g hR hk with
    | inl hk =>
      obtain ⟨hT, hk⟩ := h.past v T k hk
      exact ⟨hT.trans (g.term v), hk.trans (g.mono T).length_le⟩
    | inr hc =>
      obtain ⟨hT, hk, -⟩ := hc
      exact ⟨hT.le, hk⟩
  · obtain ⟨new, hnew, hvote⟩ := Raft.voted_step hs
    cases List.mem_append.mp (hnew ▸ hm) with
    | inl hm =>
      obtain ⟨rfl, -⟩ := hvote v T c lv hm
      exact (g.logs.traced v).mono g.mono
    | inr hm => exact (h.traced v T c lv hm).mono g.mono
  · rcases request_step hs hm with hm | ⟨dst, hr, hm, hd, hacc⟩ | ⟨hr, -⟩
    · obtain ⟨v, hv, hk⟩ := h.acked _ _ _ _ _ _ hm hok
      exact ⟨v, hv, hk.mono g.old⟩
    · cases hr
      exact ⟨dst, hd, .inl ⟨_, le_rfl, hacc hok⟩⟩
    · cases hr

theorem Retained.init : Retained W (raft W Cmd).init where
  past _ _ _ h := by rcases h with ⟨_, _, h⟩ | ⟨_, h, _⟩ <;> cases h
  kept _ _ _ h := by rcases h with ⟨_, _, h⟩ | ⟨_, h, _⟩ <;> cases h
  voted _ _ _ _ _ _ _ _ h := by rcases h with ⟨_, _, h⟩ | ⟨_, h, _⟩ <;> cases h
  traced _ _ _ _ h := by cases h
  acked _ _ _ _ _ _ h := by cases h
  matched _ h := by cases h

theorem Retained.reach {guard : Cluster Id Addr Cmd → Action Id Cmd → Prop}
    (h : (raft W Cmd).Reach guard s) (hd : Disciplined s.history) : Retained W s :=
  h.invariant_of_past (H := fun s => Disciplined s.history)
    (fun _ _ _ hs ht => ht.of_step hs) .init
    (fun _ _ _ hr ht hi hs => hi.step (.of_reach hr hs ht) (.reach hr (ht.of_step hs)) hs) hd

omit [DecidableEq Id] in
theorem Retained.take_matchIndex (h : Retained W s) (hL : LogInv s) {n v : Id}
    (hn : (s.nodes n).state = .leader) {p : Addr} (hv : W.route p = some v)
    (hT : (s.nodes v).currentTerm ≤ (s.nodes n).currentTerm) :
    (s.nodes n).matchIndexOf p ≤ (s.nodes v).log.length ∧
      (s.nodes v).log.take ((s.nodes n).matchIndexOf p) =
        (s.nodes n).log.take ((s.nodes n).matchIndexOf p) := by
  cases Nat.eq_zero_or_pos ((s.nodes n).matchIndexOf p) with
  | inl h0 => simp [h0]
  | inr h0 =>
    obtain ⟨v', hv', hk⟩ := h.matched n hn p h0
    obtain rfl := Option.some_injective _ (hv.symm.trans hv')
    have hlen := (h.past _ _ _ hk).2
    have hp : (leaderLog s.history (s.nodes n).currentTerm).take ((s.nodes n).matchIndexOf p) <+:
        (s.nodes v).log := by
      refine (h.kept _ _ _ hk).resolve_right ?_
      intro hx
      obtain ⟨m, T', l, hlt, hle, -⟩ := hx
      omega
    rw [← (hL.leader n hn).1] at hp hlen
    have hple := hp.length_le
    rw [List.length_take_of_le hlen] at hple
    refine ⟨hple, ?_⟩
    rw [take_of_isPrefix hp (List.length_take_of_le hlen).ge, List.take_take, Nat.min_self]

/-- `match_index` is sound, in runs where a leader counts only successes of its own term. -/
theorem matchIndex_sound (h : (raft W Cmd).Reach CountsOwnSuccesses s)
    (hsafe : ElectionSafe s.history) (hsends : OnlyLeadersSend s.history) {n v : Id} {p : Addr}
    {m : Nat} (hn : (s.nodes n).state = .leader) (hm : (s.nodes n).matchIndex.get? p = some m)
    (hv : W.route p = some v) (hT : (s.nodes v).currentTerm ≤ (s.nodes n).currentTerm) :
    m ≤ (s.nodes v).log.length ∧ (s.nodes v).log.take m = (s.nodes n).log.take m := by
  have hd : Disciplined s.history := ⟨hsafe, hsends, .reach (fun _ _ ha => ha) h⟩
  have heq : (s.nodes n).matchIndexOf p = m := by rw [matchIndexOf, hm, Option.getD_some]
  have hsound := (Retained.reach h hd).take_matchIndex (.reach h hsafe) hn hv hT
  rwa [heq] at hsound

/-- Node 1 acknowledges the `no_op` of leader 0. -/
def firstAcknowledgement : List (Action (Fin 3) Nat) :=
  [.electionTimeout 0, .deliver 0, .deliver 0, .runTask 0 0, .runTask 0 0, .deliver 1, .deliver 1]

theorem matchIndex_sound_firstAcknowledgement :
    ∃ s, (raft (mesh 3) Nat).runIf CountsOwnSuccesses (raft (mesh 3) Nat).init
        firstAcknowledgement = some s ∧ (s.nodes 0).matchIndex.get? 1 = some 1 ∧
      1 ≤ (s.nodes 1).log.length ∧ (s.nodes 1).log.take 1 = (s.nodes 0).log.take 1 := by
  have hrun : ((raft (mesh 3) Nat).runIf CountsOwnSuccesses (raft (mesh 3) Nat).init
      firstAcknowledgement).any (fun s => ElectionSafe s.history ∧ OnlyLeadersSend s.history ∧
        (s.nodes 0).state = .leader ∧ (s.nodes 0).matchIndex.get? 1 = some 1 ∧
        (s.nodes 1).currentTerm ≤ (s.nodes 0).currentTerm) = true := by
    decide +kernel
  obtain ⟨s, hs, hl⟩ := (Option.any_eq_true ..).mp hrun
  obtain ⟨hsafe, hsends, hn, hm, hT⟩ := of_decide_eq_true hl
  exact ⟨s, hs, hm,
    matchIndex_sound (W := mesh 3) (System.Reach.init.runIf hs) hsafe hsends hn hm rfl hT⟩

/-- The success of a term-1 request reaches node 0 in term 3. In between the leader 2
of term 2 cut the acknowledged entries from nodes 0 and 1. -/
def lateSuccess : List (Action (Fin 5) Nat) :=
  [.electionTimeout 0, .deliver 1, .deliver 1, .deliver 1, .deliver 1,
   .propose 0 7, .runTask 0 0, .runTask 0 1, .deliver 2,
   .electionTimeout 2, .deliver 5, .deliver 5, .deliver 5, .deliver 5,
   .runTask 2 0, .runTask 2 0, .runTask 2 0, .deliver 5, .deliver 6,
   .electionTimeout 0, .deliver 7, .deliver 7, .deliver 8, .deliver 8, .deliver 2]

theorem not_matchIndex_sound_lateSuccess :
    ∃ s, (raft (mesh 5) Nat).run (raft (mesh 5) Nat).init lateSuccess = some s ∧
      ElectionSafe s.history ∧ OnlyLeadersSend s.history ∧ (s.nodes 0).state = .leader ∧
      (s.nodes 1).currentTerm ≤ (s.nodes 0).currentTerm ∧
      (s.nodes 0).matchIndex.get? 1 = some 2 ∧ ¬ 2 ≤ (s.nodes 1).log.length := by
  have hrun : ((raft (mesh 5) Nat).run (raft (mesh 5) Nat).init lateSuccess).any (fun s =>
      ElectionSafe s.history ∧ OnlyLeadersSend s.history ∧ (s.nodes 0).state = .leader ∧
      (s.nodes 1).currentTerm ≤ (s.nodes 0).currentTerm ∧
      (s.nodes 0).matchIndex.get? 1 = some 2 ∧ ¬ 2 ≤ (s.nodes 1).log.length) = true := by
    decide +kernel
  obtain ⟨s, hs, hl⟩ := (Option.any_eq_true ..).mp hrun
  exact ⟨s, hs, of_decide_eq_true hl⟩

end DistSync.Raft
