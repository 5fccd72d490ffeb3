import DistSync.Raft.Retention

/-! Leader completeness. An entry of the leader's term that half of the nodes stored is
in the log of every later leader: that half holds one of its voters, which kept the entry
up to its vote, and the winner's log was no less up to date than the voter's. -/
namespace DistSync.Raft
open TermLog RaftNode
variable {Id Addr Cmd : Type} [DecidableEq Id] [DecidableEq Addr]
variable {W : Wiring Id Addr} {s t : Cluster Id Addr Cmd}

/-- Half of the nodes stored the first `i` entries of the log of term `T`, the last of them
of that term. -/
structure CommittedAt (W : Wiring Id Addr) (h : List (Event Id Cmd)) (T i : Nat) : Prop where
  half : ∃ n, ∃ Q : Finset Id, (W.members n).card ≤ 2 * Q.card ∧ ∀ v ∈ Q, Stored h v T i
  pos : 0 < i
  term : (leaderLog h T)[i - 1]?.map LogEntry.term = some T

omit [DecidableEq Addr] in
theorem CommittedAt.le_length {h : List (Event Id Cmd)} {T i : Nat} (hc : CommittedAt W h T i) :
    i ≤ (leaderLog h T).length := by
  obtain ⟨e, he, -⟩ := Option.map_eq_some_iff.mp hc.term
  have hlt : i - 1 < (leaderLog h T).length := (List.getElem?_eq_some_iff.mp he).1
  omega

omit [DecidableEq Addr] in
theorem CommittedAt.getElem? {h : List (Event Id Cmd)} {T i : Nat} (hc : CommittedAt W h T i)
    {l : List (LogEntry Id Cmd)} (hp : (leaderLog h T).take i <+: l) :
    ∃ e, l[i - 1]? = some e ∧ e.term = T := by
  obtain ⟨e, he, hT⟩ := Option.map_eq_some_iff.mp hc.term
  have hi : i - 1 < i := Nat.sub_lt hc.pos Nat.one_pos
  have hlt : i - 1 < ((leaderLog h T).take i).length := by
    rw [List.length_take_of_le hc.le_length]
    exact hi
  refine ⟨e, ?_, hT⟩
  rw [← List.getElem?_take_of_lt hi, List.getElem?_eq_getElem hlt] at he
  rw [List.getElem?_eq_getElem (hlt.trans_le hp.length_le), ← hp.getElem hlt]
  exact he

section Completeness
variable (hV : VoteInv W s) (hL : LogInv s) (hR : ReplicationInv s)
include hL hR

/-- A candidate as up to date as a voter that has the committed prefix has it too,
if all leaders in between have it. -/
theorem CommittedAt.prefix_of_upToDate {T i T' : Nat} (hc : CommittedAt W s.history T i)
    {l lv : List (LogEntry Id Cmd)} (hl : Traced LogEntry.term (leaderLog s.history) l)
    (hlv : Traced LogEntry.term (leaderLog s.history) lv) (hlt : ∀ e ∈ l, e.term < T')
    (hp : (leaderLog s.history T).take i <+: lv) (hup : UpToDate l lv)
    (ih : ∀ T'', T'' < T' → T < T'' → ∀ n l', .becameLeader n T'' l' ∈ s.history →
      (leaderLog s.history T).take i <+: l') : (leaderLog s.history T).take i <+: l := by
  obtain ⟨e, he, rfl⟩ := hc.getElem? hp
  have hlvne : lv ≠ [] := List.ne_nil_of_mem (List.mem_of_getElem? he)
  have hlast : e.term ≤ lastTerm LogEntry.term lv := le_lastTerm (hlv.pairwise hR.sorted) he
  cases hup with
  | inl hgt =>
    -- the winner's last entry is of a later term, whose leader already had the prefix
    have hne : l ≠ [] := by
      intro heq
      subst heq
      exact absurd hgt (Nat.not_lt_zero _)
    obtain ⟨a, ha, hat⟩ := exists_lastTerm LogEntry.term hne
    have hpre := hl.prefix_lastTerm hne
    obtain ⟨n, l', hb⟩ := hL.led (lastTerm LogEntry.term l) fun hnil => by
      rw [hnil] at hpre
      exact hne (List.prefix_nil.mp hpre)
    obtain ⟨hl', hlt'⟩ := hR.elected _ _ _ hb
    have hpl' := ih _ (hat ▸ hlt a ha) (hlast.trans_lt hgt) n l' hb
    cases List.prefix_or_prefix_of_prefix hl' hpre with
    | inl hle => exact hpl'.trans hle
    | inr hle => exact absurd (hlt' a (hle.subset ha)) (by omega)
  | inr hup =>
    obtain ⟨heq, hlen⟩ := hup
    -- both logs end in the same term, so the longer one contains the other
    have hne : l ≠ [] := by
      intro heq
      subst heq
      exact hlvne (List.length_eq_zero_iff.mp (Nat.le_zero.mp hlen))
    have hpre := hl.prefix_lastTerm hne
    rw [← heq] at hpre
    exact hp.trans (List.prefix_of_prefix_length_le (hlv.prefix_lastTerm hlvne) hpre hlen)

include hV in
theorem CommittedAt.elected (hW : W.Complete) (hS : Retained W s)
    (hsafe : ElectionSafe s.history) {T i : Nat} (hc : CommittedAt W s.history T i) {T' : Nat}
    (hlt : T < T') {m : Id} {l : List (LogEntry Id Cmd)}
    (hb : .becameLeader m T' l ∈ s.history) : (leaderLog s.history T).take i <+: l := by
  induction T' using Nat.strong_induction_on generalizing m l with
  | _ T' ih =>
    obtain ⟨A, hA, hsA⟩ := hV.elected m T' l hb
    obtain ⟨n, B, hB, hsB⟩ := hc.half
    obtain ⟨v, hvA, hvB⟩ := hW.quorum_meets hA hB
    obtain ⟨lv, hvote, hup, ht | ⟨m', l', hne, hb'⟩⟩ := hsA v hvA
    · obtain ⟨hl, hbelow⟩ := hR.elected _ _ _ hb
      cases hS.voted v T' m lv ht T i hlt (hsB v hvB) with
      | inl hp =>
        exact hc.prefix_of_upToDate hL hR ((hL.logs T').of_isPrefix hl) (hS.traced v T' m lv hvote)
          hbelow hp hup fun T'' h2 h1 n' l' hb' => ih T'' h2 h1 hb'
      | inr hc =>
        obtain ⟨n', T'', l', h1, h2, hb', hno⟩ := hc
        exact absurd (ih T'' h2 h1 hb') hno
    · exact absurd (hsafe _ _ _ _ _ hb' hb) hne

end Completeness

def ackers (W : Wiring Id Addr) (x : RaftNode Id Addr Cmd) (n : Id) (i : Nat) : Finset Id :=
  insert n (W.listeners (x.peers.filter fun p => x.matchIndexOf p ≥ i))

theorem half_ackers (hW : W.Complete) {x : RaftNode Id Addr Cmd} {n : Id} {i : Nat}
    (hp : x.peers = W.peers n) (hq : x.quorum ≤ x.replicas i) :
    (W.members n).card ≤ 2 * (ackers W x n i).card := by
  refine hW.half (hp ▸ List.filter_sublist) ?_
  rw [← List.countP_eq_length_filter, Nat.add_comm (List.countP _ _), ← hp]
  exact hq

/-- What the counting leader sees as replicated to a quorum is committed. -/
theorem committedAt_of_replicas (hW : W.Complete) (hV : VoteInv W s) (hL : LogInv s)
    (hS : Retained W s) {n : Id} (hn : (s.nodes n).state = .leader) {i : Nat} (hi : 0 < i)
    (hterm : (s.nodes n).log[i - 1]?.map LogEntry.term = some (s.nodes n).currentTerm)
    (hq : (s.nodes n).quorum ≤ (s.nodes n).replicas i) :
    CommittedAt W s.history (s.nodes n).currentTerm i := by
  obtain ⟨hlog, happ, -⟩ := hL.leader n hn
  refine ⟨⟨n, ackers W (s.nodes n) n i, half_ackers hW (hV.peers n) hq, fun v hv => ?_⟩, hi,
    hlog ▸ hterm⟩
  cases Finset.mem_insert.mp hv with
  | inl hc =>
    subst hc
    obtain ⟨e, he, -⟩ := Option.map_eq_some_iff.mp hterm
    have hlt : i - 1 < (s.nodes v).log.length := (List.getElem?_eq_some_iff.mp he).1
    exact .inr ⟨_, happ, by omega⟩
  | inr hv =>
    obtain ⟨p, hp, hr⟩ := Wiring.mem_listeners.mp hv
    have hm : i ≤ (s.nodes n).matchIndexOf p := by simpa using (List.mem_filter.mp hp).2
    obtain ⟨v', hv', hk⟩ := hS.matched n hn p (hi.trans_le hm)
    obtain rfl := Option.some_injective _ (hr.symm.trans hv')
    exact hk.le hm

/-- A leader's commit index rises only to an entry of its term that it counts on a quorum. -/
def Counted (x : RaftNode Id Addr Cmd) : Prop :=
  0 < x.commitIndex ∧
    x.log[x.commitIndex - 1]?.map LogEntry.term = some x.currentTerm ∧
    x.quorum ≤ x.replicas x.commitIndex

omit [DecidableEq Id] in
theorem handleAppendEntriesResponse_counted (x : RaftNode Id Addr Cmd) (peer : Addr)
    (resp : AppendResponse) (sent next : Nat) :
    (x.handleAppendEntriesResponse peer resp sent next).commitIndex = x.commitIndex ∨
      Counted (x.handleAppendEntriesResponse peer resp sent next) := by
  rcases handleAppendEntriesResponse_cases x peer resp sent next with
    ⟨-, he⟩ | he | ⟨-, -, -, he⟩ | ⟨-, -, -, he⟩ <;> rw [he]
  · exact .inl rfl
  · exact .inl rfl
  · cases advanceCommitIndex_cases (x.recordMatch peer (next - 1 + sent)) with
    | inl he =>
      rw [he]
      exact .inl rfl
    | inr h =>
      obtain ⟨i, hi, he⟩ := h
      rw [he]
      obtain ⟨hlt, -, hterm, hq⟩ := commitScan_eq_some _ hi
      exact .inr ⟨Nat.zero_lt_of_lt hlt, hterm, hq⟩
  · exact .inl rfl

theorem committed_step {a : Action Id Cmd} (hs : (raft W Cmd).step s a = some t) {n : Id}
    {T i : Nat} {log : List (LogEntry Id Cmd)} (hm : .committed n T i log ∈ t.history) :
    .committed n T i log ∈ s.history ∨ (t.nodes n).state = .leader ∧
      T = (t.nodes n).currentTerm ∧ i = (t.nodes n).commitIndex ∧ log = (t.nodes n).log ∧
      Counted (t.nodes n) := by
  have hmove {m : Id} {y : RaftNode Id Addr Cmd} {net : List (Rpc Id Addr Cmd)}
      {evs : List (Event Id Cmd)} (hev : .committed n T i log ∉ evs)
      (hy : y.state = .leader → y.commitIndex = (s.nodes m).commitIndex ∨ Counted y)
      (hm : .committed n T i log ∈ (s.move m y net evs).history) :
      .committed n T i log ∈ s.history ∨ ((s.move m y net evs).nodes n).state = .leader ∧
        T = ((s.move m y net evs).nodes n).currentTerm ∧
        i = ((s.move m y net evs).nodes n).commitIndex ∧
        log = ((s.move m y net evs).nodes n).log ∧ Counted ((s.move m y net evs).nodes n) := by
    rcases mem_move_history.mp hm with ho | he | hm
    · obtain ⟨rfl, hT, hi, hlog, -, hlead, hlt⟩ := mem_observe_committed.mp ho
      rw [move_self]
      refine .inr ⟨hlead, hT, hi, hlog, (hy hlead).resolve_left fun heq => ?_⟩
      omega
    · exact absurd he hev
    · exact .inl hm
  have hkeep {m : Id} {y : RaftNode Id Addr Cmd}
      (hv : y.toVolatileState = (s.nodes m).toVolatileState) :
      y.state = .leader → y.commitIndex = (s.nodes m).commitIndex ∨ Counted y :=
    fun _ => .inl (congrArg VolatileState.commitIndex hv)
  cases step_cases hs with
  | election m hx => exact hmove (by simp) (hkeep (startElection_volatile _)) hm
  | voteRequest k src peer req dst hk hd =>
    refine hmove ?_ (hkeep (handleVoteRequest_volatile _ req)) hm
    split <;> simp
  | voteResponse k src peer req resp hk =>
    exact hmove (by simp) (hkeep (handleVoteResponse_volatile _ resp)) hm
  | appendRequest k src origin peer req nextIdx dst hk hd =>
    refine hmove ?_ (fun hy => .inl ?_) hm
    · split <;> simp
    · cases Nat.lt_or_ge req.term (s.nodes dst).currentTerm with
      | inl hT => rw [handleAppendEntries_old _ hT]
      | inr hT =>
        -- whoever accepts a request is no leader
        obtain ⟨log', commit, ok, -, he⟩ := handleAppendEntries_cases (s.nodes dst) hT
        rw [he] at hy
        cases hy
  | appendResponse k src origin peer req nextIdx resp hk ha =>
    exact hmove (by simp) (fun _ => handleAppendEntriesResponse_counted ..) hm
  | propose m command => exact hmove (by simp) (hkeep (propose_volatile ..)) hm
  | finish m k c hk => exact hmove (by simp) (hkeep (finishPropose_volatile ..)) hm
  | apply m hx =>
    refine hmove ?_ (fun _ => .inl rfl) hm
    split <;> simp
  | send m k origin peer hk ha => exact hmove (by simp) (hkeep rfl) hm
  | _ => exact hmove (by simp) (hkeep rfl) hm

omit [DecidableEq Addr] in
theorem CommittedAt.mono {T i : Nat} (hc : CommittedAt W s.history T i) (g : Stage W s t) :
    CommittedAt W t.history T i := by
  obtain ⟨n, Q, hQ, hs⟩ := hc.half
  refine ⟨⟨n, Q, hQ, fun v hv => (hs v hv).mono g.old⟩, hc.pos, ?_⟩
  have hi : i - 1 < i := Nat.sub_lt hc.pos Nat.one_pos
  have hterm := hc.term
  rw [← List.getElem?_take_of_lt hi, ← g.take_leaderLog hc.le_length,
    List.getElem?_take_of_lt hi] at hterm
  exact hterm

def CommitInv (W : Wiring Id Addr) (s : Cluster Id Addr Cmd) : Prop :=
  ∀ n T i log, .committed n T i log ∈ s.history →
    CommittedAt W s.history T i ∧ (leaderLog s.history T).take i = log.take i

theorem CommitInv.step (h : CommitInv W s) (hW : W.Complete) (g : Stage W s t)
    (hS : Retained W t) {a : Action Id Cmd} (hs : (raft W Cmd).step s a = some t) :
    CommitInv W t := by
  intro n T i log hm
  cases committed_step hs hm with
  | inl hm =>
    obtain ⟨hc, htake⟩ := h n T i log hm
    exact ⟨hc.mono g, by rw [g.take_leaderLog hc.le_length, htake]⟩
  | inr hc =>
    obtain ⟨hn, rfl, rfl, rfl, hpos, hterm, hq⟩ := hc
    rw [← (g.logs'.leader n hn).1]
    exact ⟨committedAt_of_replicas hW g.votes' g.logs' hS hn hpos hterm hq, rfl⟩

theorem CommitInv.reach {guard : Cluster Id Addr Cmd → Action Id Cmd → Prop} (hW : W.Complete)
    (h : (raft W Cmd).Reach guard s) (hd : Disciplined s.history) : CommitInv W s :=
  h.invariant_of_past (H := fun s => Disciplined s.history)
    (fun _ _ _ hs ht => ht.of_step hs) (fun _ _ _ _ h => by cases h)
    (fun _ _ _ hr ht hi hs => hi.step hW (.of_reach hr hs ht)
      (.reach (.step hr.reachable trivial hs) ht) hs) hd

def OwnResponses (h : List (Event Id Cmd)) : Prop :=
  ∀ n T req resp, .gotResponse n .leader T req resp ∈ h → req.term = T

def Event.ownResponse : Event Id Cmd → Bool
  | .gotResponse _ state T req _ => state = .leader → req.term = T
  | _ => true

omit [DecidableEq Id] in
theorem ownResponses_iff {h : List (Event Id Cmd)} :
    OwnResponses h ↔ ∀ e ∈ h, e.ownResponse = true := by
  constructor
  · intro hs e he
    cases e with
    | gotResponse n state T req resp =>
      exact decide_eq_true fun hx => hs n T req resp (hx ▸ he)
    | _ => rfl
  · exact fun hs n T req resp hm => of_decide_eq_true (hs _ hm) rfl

instance (h : List (Event Id Cmd)) : Decidable (OwnResponses h) :=
  decidable_of_iff' _ ownResponses_iff

/-- Leader completeness: what a leader of term `T` committed, every leader elected in a
later term has. -/
theorem leaderCompleteness (hW : W.Complete) (h : (raft W Cmd).Reachable s)
    (hsafe : ElectionSafe s.history) (hsends : OnlyLeadersSend s.history)
    (hresp : OwnResponses s.history) {n m : Id} {T T' i : Nat} {log l : List (LogEntry Id Cmd)}
    (hc : .committed n T i log ∈ s.history) (hb : .becameLeader m T' l ∈ s.history)
    (hlt : T < T') : i ≤ l.length ∧ l.take i = log.take i := by
  have hd : Disciplined s.history :=
    ⟨hsafe, hsends, fun n T req resp hm _ => hresp n T req resp hm⟩
  obtain ⟨hcommit, htake⟩ := CommitInv.reach hW h hd n T i log hc
  have hp := hcommit.elected (.reach h) (.reach h hsafe) (.reach h hd) hW (.reach h hd) hsafe hlt hb
  have hlen := List.length_take_of_le hcommit.le_length
  refine ⟨hlen ▸ hp.length_le, ?_⟩
  rw [take_of_isPrefix hp hlen.ge, List.take_take, Nat.min_self, htake]

/-- Leader 0 commits its `no_op` of term 1 with node 1, which then wins term 2. -/
def secondTerm : List (Action (Fin 3) Nat) :=
  [.electionTimeout 0, .deliver 0, .deliver 0, .runTask 0 0, .runTask 0 0, .deliver 1, .deliver 1,
   .electionTimeout 1, .deliver 2, .deliver 2]

theorem leaderCompleteness_secondTerm :
    ∃ s, (raft (mesh 3) Nat).run (raft (mesh 3) Nat).init secondTerm = some s ∧
      ∃ log l, .committed 0 1 1 log ∈ s.history ∧ .becameLeader 1 2 l ∈ s.history ∧
        1 ≤ l.length ∧ l.take 1 = log.take 1 := by
  have hrun : ((raft (mesh 3) Nat).run (raft (mesh 3) Nat).init secondTerm).any (fun s =>
      ElectionSafe s.history ∧ OnlyLeadersSend s.history ∧ OwnResponses s.history ∧
      .committed 0 1 1 [⟨1, 1, .noOp 0, none, 0⟩] ∈ s.history ∧
      .becameLeader 1 2 [⟨1, 1, .noOp 0, none, 0⟩] ∈ s.history) = true := by
    decide +kernel
  obtain ⟨s, hs, hl⟩ := (Option.any_eq_true ..).mp hrun
  obtain ⟨hsafe, hsends, hresp, hc, hb⟩ := of_decide_eq_true hl
  exact ⟨s, hs, _, _, hc, hb, leaderCompleteness (mesh_complete 3) (System.reachable_run hs)
    hsafe hsends hresp hc hb (by decide)⟩

end DistSync.Raft
