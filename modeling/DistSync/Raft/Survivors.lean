import DistSync.Progress
import DistSync.Raft.Votes
import DistSync.Raft.Deployment

/-! Crashes. A node that has crashed takes part in no step. Those that are up elect no leader of a
new term without being a quorum by themselves; and as deployed, where a node may count itself among
its peers, a quorum is more than a majority. -/
namespace DistSync.Raft
variable {Id Addr Cmd : Type} [DecidableEq Id] [DecidableEq Addr]
variable {W : Wiring Id Addr} {s t : Cluster Id Addr Cmd} {a : Action Id Cmd} {up : Finset Id}

/-- The node that takes the step; who is sent a request need not answer, who sent it need not
take notice of the answer. -/
def actor (W : Wiring Id Addr) (s : Cluster Id Addr Cmd) : Action Id Cmd → Option Id
  | .electionTimeout n | .heartbeat n | .runTask n _ | .propose n _ | .finishPropose n _ |
    .applyNext n => some n
  | .deliver k =>
    match s.net[k]? with
    | some (.vote _ peer _ none) | some (.append _ _ peer _ _ none) => W.route peer
    | some (.vote src _ _ (some _)) | some (.append src _ _ _ _ (some _)) => some src
    | none => none

def Among (W : Wiring Id Addr) (up : Finset Id) (s : Cluster Id Addr Cmd) (a : Action Id Cmd) :
    Prop :=
  ∀ n ∈ actor W s a, n ∈ up

instance (W : Wiring Id Addr) (up : Finset Id) (s : Cluster Id Addr Cmd) (a : Action Id Cmd) :
    Decidable (Among W up s a) := inferInstanceAs (Decidable (∀ n ∈ _, _))

theorem Among.frozen (ha : Among W up s a) (hs : (raft W Cmd).step s a = some t) {v : Id}
    (hv : v ∉ up) : t.nodes v = s.nodes v := by
  have hmove {n : Id} {y : RaftNode Id Addr Cmd} {net : List (Rpc Id Addr Cmd)}
      {evs : List (Event Id Cmd)} (hn : n ∈ actor W s a) :
      (s.move n y net evs).nodes v = s.nodes v :=
    move_of_ne _ _ _ _ fun he => hv (he ▸ ha n hn)
  cases step_cases hs with
  | voteRequest k src peer req dst hk hd =>
    exact hmove (by simp only [actor, hk, hd, Option.mem_def])
  | voteResponse k src peer req resp hk => exact hmove (by simp only [actor, hk, Option.mem_def])
  | appendRequest k src origin peer req nextIdx dst hk hd =>
    exact hmove (by simp only [actor, hk, hd, Option.mem_def])
  | appendResponse k src origin peer req nextIdx resp hk _ =>
    exact hmove (by simp only [actor, hk, Option.mem_def])
  | dropResponse k src origin peer req nextIdx resp hk =>
    exact hmove (by simp only [actor, hk, Option.mem_def])
  | _ => exact hmove rfl

theorem leads_frozen (hl : (raft W Cmd).Leads (Among W up) s t) {v : Id} (hv : v ∉ up) :
    t.nodes v = s.nodes v :=
  hl.kept (I := fun t => t.nodes v = s.nodes v)
    (fun _ _ _ hi ha hs => (ha.frozen hs hv).trans hi) rfl

/-- Where those that are up are too few, whoever was elected at all was so in a term that one of the
crashed had reached. -/
theorem term_le_of_elected (hr : (raft W Cmd).Reachable s)
    (hl : (raft W Cmd).Leads (Among W up) s t)
    (hup : ∀ n ∈ up, up.card ≤ ((W.peers n).length + 1) / 2) {n : Id} {T : Nat}
    {l : List (LogEntry Id Cmd)} (hb : .becameLeader n T l ∈ t.history) :
    ∃ v, v ∉ up ∧ T ≤ (s.nodes v).currentTerm := by
  have hI : VoteInv W t := .reach (hl.reachable hr)
  by_cases hn : n ∈ up
  · obtain ⟨Q, hQ, hvotes⟩ := hI.elected n T l hb
    have hlt : up.card < Q.card := (hup n hn).trans_lt hQ
    obtain ⟨v, hv, hdown⟩ := Finset.exists_mem_notMem_of_card_lt_card hlt
    obtain ⟨lv, hvoted, -⟩ := hvotes v hv
    have hle := (hI.past v T n lv hvoted).2
    rw [leads_frozen hl hdown] at hle
    exact ⟨v, hdown, hle⟩
  · have hle := (hI.led n T l hb).1
    rw [leads_frozen hl hn] at hle
    exact ⟨n, hn, hle⟩

namespace Deployment
variable {N : Nat} (D : Deployment N) {s t : Cluster (Fin N) String Cmd} {up : Finset (Fin N)}

/-- As deployed, with no address bound as it is advertised, a cluster of `N` nodes elects no leader
of a new term while at most `(N + 1) / 2` are up: one of three that has crashed is too many. -/
theorem crash_stops_elections
    (hbind : ∀ n m, D.address m ≠ hostPort (D.config n).host (D.config n).port)
    (hr : (raft D.wiring Cmd).Reachable s) (hup : up.card ≤ (N + 1) / 2)
    (hl : (raft D.wiring Cmd).Leads (Among D.wiring up) s t) {n : Fin N} {T : Nat}
    {l : List (LogEntry (Fin N) Cmd)} (hb : .becameLeader n T l ∈ t.history) :
    ∃ v, v ∉ up ∧ T ≤ (s.nodes v).currentTerm := by
  refine term_le_of_elected hr hl (fun n _ => ?_) hb
  rwa [D.peers_eq hbind, List.length_map, List.length_finRange]

end Deployment

/-- Node 0 has its own vote and the one of node 1; node 2 is down. -/
def oneDown : List (Action (Fin 3) Nat) :=
  [.electionTimeout 0, .deliver 0, .deliver 0, .deliver 0, .deliver 0]

theorem crash_stops_elections_oneDown : ∃ t,
    (raft compose.wiring Nat).runIf (Among compose.wiring {0, 1}) (raft compose.wiring Nat).init
        oneDown = some t ∧
      (t.nodes 0).votesReceived = {0, 1} ∧ ∀ n T l, .becameLeader n T l ∈ t.history →
        ∃ v, v ∉ ({0, 1} : Finset (Fin 3)) ∧
          T ≤ ((raft compose.wiring Nat).init.nodes v).currentTerm := by
  have hrun : ((raft compose.wiring Nat).runIf (Among compose.wiring {0, 1})
      (raft compose.wiring Nat).init oneDown).any (fun t => (t.nodes 0).votesReceived = {0, 1}) =
        true := by
    decide +kernel
  obtain ⟨t, ht, hvotes⟩ := (Option.any_eq_true ..).mp hrun
  exact ⟨t, ht, of_decide_eq_true hvotes, fun _ _ _ => compose.crash_stops_elections
    (by decide +kernel) .init (by decide) (System.Leads.of_runIf ht)⟩

end DistSync.Raft
