import DistSync.Raft.Cluster

/-! Inversion of the cluster's steps, said once: which guards an enabled action
had and which node, messages and events it leaves behind. -/
namespace DistSync.Raft
open TermLog
variable {Id Addr Cmd : Type} [DecidableEq Id]

section Move
variable (s : Cluster Id Addr Cmd) (n m : Id) (y : RaftNode Id Addr Cmd)
  (net : List (Rpc Id Addr Cmd)) (evs : List (Event Id Cmd))

@[simp] theorem move_self : (s.move n y net evs).nodes n = y := Function.update_self ..

@[simp] theorem move_net : (s.move n y net evs).net = net := rfl

@[simp] theorem move_history :
    (s.move n y net evs).history = observe n (s.nodes n) y ++ evs ++ s.history := rfl

variable {m n}

theorem move_of_ne (h : m ≠ n) : (s.move n y net evs).nodes m = s.nodes m :=
  Function.update_of_ne h ..

variable {s y net evs}

theorem move_nodes {P : Id → RaftNode Id Addr Cmd → Prop} (h : ∀ m, P m (s.nodes m)) (hy : P n y)
    (m : Id) : P m ((s.move n y net evs).nodes m) := by
  by_cases hm : m = n
  · subst hm
    rwa [move_self]
  · rw [move_of_ne _ _ _ _ hm]
    exact h m

theorem mem_move_history {e : Event Id Cmd} : e ∈ (s.move n y net evs).history ↔
    e ∈ observe n (s.nodes n) y ∨ e ∈ evs ∨ e ∈ s.history := by
  simp only [move_history, List.mem_append, or_assoc]

variable {t : Nat} {log : List (LogEntry Id Cmd)}

omit [DecidableEq Id] in
theorem mem_observe_becameLeader {x : RaftNode Id Addr Cmd} :
    Event.becameLeader m t log ∈ observe n x y ↔
      m = n ∧ t = y.currentTerm ∧ log = x.log ∧ x.state ≠ .leader ∧ y.state = .leader := by
  unfold observe
  split <;> split <;> split <;> simp_all

omit [DecidableEq Id] in
theorem mem_observe_appended {x : RaftNode Id Addr Cmd} :
    Event.appended m t log ∈ observe n x y ↔
      m = n ∧ t = y.currentTerm ∧ log = y.log ∧ y.state = .leader ∧
        x.log.length < y.log.length := by
  unfold observe
  split <;> split <;> split <;> simp_all

omit [DecidableEq Id] in
theorem mem_observe_committed {x : RaftNode Id Addr Cmd} {i : Nat} :
    Event.committed m t i log ∈ observe n x y ↔
      m = n ∧ t = y.currentTerm ∧ i = y.commitIndex ∧ log = y.log ∧ x.state = .leader ∧
        y.state = .leader ∧ x.commitIndex < y.commitIndex := by
  unfold observe
  split <;> split <;> split <;> simp_all

def Event.ofLeader : Event Id Cmd → Bool
  | .becameLeader .. | .appended .. | .committed .. => true
  | _ => false

omit [DecidableEq Id] in
theorem ofLeader_of_mem_observe {x : RaftNode Id Addr Cmd} {e : Event Id Cmd}
    (h : e ∈ observe n x y) : e.ofLeader = true := by
  unfold observe at h
  split at h <;> split at h <;> split at h <;> simp at h <;> grind [Event.ofLeader]

end Move

section Delivery

def voteRequestAt (W : Wiring Id Addr) (s : Cluster Id Addr Cmd) :
    Action Id Cmd → Option (Id × VoteRequest Id)
  | .deliver k =>
    match s.net[k]? with
    | some (.vote _ peer req none) => (W.route peer).map fun dst => (dst, req)
    | _ => none
  | _ => none

def appendRequestAt (W : Wiring Id Addr) (s : Cluster Id Addr Cmd) :
    Action Id Cmd → Option (Id × AppendRequest Id Cmd)
  | .deliver k =>
    match s.net[k]? with
    | some (.append _ _ peer req _ none) => (W.route peer).map fun dst => (dst, req)
    | _ => none
  | _ => none

/-- The node whose per-peer replication task `a` starts, with the task's scheduler. -/
def sendAt (s : Cluster Id Addr Cmd) : Action Id Cmd → Option (Id × Origin)
  | .runTask n k =>
    match (s.nodes n).tasks[k]? with
    | some (.replicateToPeer origin _) => some (n, origin)
    | _ => none
  | _ => none

/-- The request whose success response `a` hands back to its sender, with the sender. -/
def successAt (s : Cluster Id Addr Cmd) : Action Id Cmd → Option (Id × AppendRequest Id Cmd)
  | .deliver k =>
    match s.net[k]? with
    | some (.append src origin _ req _ (some resp)) =>
      if origin.alive (s.nodes src) = true ∧ resp.success = true then some (src, req) else none
    | _ => none
  | _ => none

def votesCast (h : List (Event Id Cmd)) (v : Id) (T : Nat) : List Id :=
  h.filterMap fun
    | .voted v' T' c _ => if v' = v ∧ T' = T then some c else none
    | _ => none

theorem mem_votesCast {h : List (Event Id Cmd)} {v c : Id} {T : Nat} :
    c ∈ votesCast h v T ↔ ∃ l, .voted v T c l ∈ h := by
  simp only [votesCast, List.mem_filterMap]
  constructor
  · intro hx
    obtain ⟨e, he, hc⟩ := hx
    split at hc
    · split at hc
      · rename_i heq
        obtain ⟨rfl, rfl⟩ := heq
        cases hc
        exact ⟨_, he⟩
      · cases hc
    · cases hc
  · intro hx
    obtain ⟨l, hl⟩ := hx
    exact ⟨_, hl, by simp⟩

end Delivery

variable [DecidableEq Addr]

/-- What one enabled action does, with its guards. -/
inductive Transition (W : Wiring Id Addr) (s : Cluster Id Addr Cmd) :
    Action Id Cmd → Cluster Id Addr Cmd → Prop
  | election (n : Id) (hx : (s.nodes n).state ≠ .leader) :
    Transition W s (.electionTimeout n)
      (s.move n (s.nodes n).startElection.1
        (s.net ++ (s.nodes n).startElection.2.map fun r => .vote n r.1 r.2 none)
        [.voted n ((s.nodes n).currentTerm + 1) n (s.nodes n).log])
  | heartbeat (n : Id) (loop : Nat) (hl : (s.nodes n).heartbeatTask = some loop)
      (hx : (s.nodes n).state = .leader) :
    Transition W s (.heartbeat n)
      (s.move n { s.nodes n with
        tasks := (s.nodes n).tasks ++ (s.nodes n).replicateToAll (.heartbeat loop) } s.net [])
  | heartbeatEnds (n : Id) (hx : (s.nodes n).state ≠ .leader) :
    Transition W s (.heartbeat n) (s.move n { s.nodes n with heartbeatTask := none } s.net [])
  | replicateAll (n : Id) (k : Nat) (hk : (s.nodes n).tasks[k]? = some .replicateToAll) :
    Transition W s (.runTask n k)
      (s.move n { s.nodes n with
        tasks := (s.nodes n).tasks.eraseIdx k ++ (s.nodes n).replicateToAll .propose } s.net [])
  | send (n : Id) (k : Nat) (origin : Origin) (peer : Addr)
      (hk : (s.nodes n).tasks[k]? = some (.replicateToPeer origin peer))
      (ha : origin.alive (s.nodes n) = true) :
    Transition W s (.runTask n k)
      (s.move n { s.nodes n with tasks := (s.nodes n).tasks.eraseIdx k }
        (s.net ++ [.append n origin peer ((s.nodes n).appendRequest peer)
          ((s.nodes n).nextIndexOf peer) none])
        [.sentAppend n (s.nodes n).state (s.nodes n).currentTerm ((s.nodes n).appendRequest peer)])
  | skip (n : Id) (k : Nat) :
    Transition W s (.runTask n k)
      (s.move n { s.nodes n with tasks := (s.nodes n).tasks.eraseIdx k } s.net [])
  | voteRequest (k : Nat) (src : Id) (peer : Addr) (req : VoteRequest Id) (dst : Id)
      (hk : s.net[k]? = some (.vote src peer req none)) (hd : W.route peer = some dst) :
    Transition W s (.deliver k)
      (s.move dst ((s.nodes dst).handleVoteRequest req).1
        (s.net.set k (.vote src peer req (some ((s.nodes dst).handleVoteRequest req).2)))
        (if ((s.nodes dst).handleVoteRequest req).2.voteGranted then
          [.voted dst req.term req.candidateId (s.nodes dst).log] else []))
  | voteResponse (k : Nat) (src : Id) (peer : Addr) (req : VoteRequest Id) (resp : VoteResponse Id)
      (hk : s.net[k]? = some (.vote src peer req (some resp))) :
    Transition W s (.deliver k)
      (s.move src ((s.nodes src).handleVoteResponse resp) (s.net.eraseIdx k) [])
  | appendRequest (k : Nat) (src : Id) (origin : Origin) (peer : Addr)
      (req : AppendRequest Id Cmd) (nextIdx : Nat) (dst : Id)
      (hk : s.net[k]? = some (.append src origin peer req nextIdx none))
      (hd : W.route peer = some dst) :
    Transition W s (.deliver k)
      (s.move dst ((s.nodes dst).handleAppendEntries req).1
        (s.net.set k
          (.append src origin peer req nextIdx (some ((s.nodes dst).handleAppendEntries req).2)))
        (if ((s.nodes dst).handleAppendEntries req).2.success then
          [.accepted dst req.term (req.prevLogIndex + req.entries.length)] else []))
  | appendResponse (k : Nat) (src : Id) (origin : Origin) (peer : Addr)
      (req : AppendRequest Id Cmd) (nextIdx : Nat) (resp : AppendResponse)
      (hk : s.net[k]? = some (.append src origin peer req nextIdx (some resp)))
      (ha : origin.alive (s.nodes src) = true) :
    Transition W s (.deliver k)
      (s.move src
        ((s.nodes src).handleAppendEntriesResponse peer resp req.entries.length nextIdx)
        (s.net.eraseIdx k)
        [.gotResponse src (s.nodes src).state (s.nodes src).currentTerm req resp])
  | dropResponse (k : Nat) (src : Id) (origin : Origin) (peer : Addr)
      (req : AppendRequest Id Cmd) (nextIdx : Nat) (resp : AppendResponse)
      (hk : s.net[k]? = some (.append src origin peer req nextIdx (some resp))) :
    Transition W s (.deliver k) (s.move src (s.nodes src) (s.net.eraseIdx k) [])
  | propose (n : Id) (command : Cmd) :
    Transition W s (.propose n command)
      (s.move n ((s.nodes n).propose (.client command) .client) s.net [])
  | finish (n : Id) (k : Nat) (c : ProposeCall Id Cmd) (hk : (s.nodes n).calls[k]? = some c) :
    Transition W s (.finishPropose n k)
      (s.move n ((s.nodes n).finishPropose c k) s.net
        [.returned n c.entry c.resolved (s.nodes n).log (s.nodes n).commitIndex])
  | apply (n : Id) (hx : (s.nodes n).lastApplied < (s.nodes n).commitIndex) :
    Transition W s (.applyNext n)
      (s.move n (s.nodes n).applyNext.1 s.net
        (match (s.nodes n).applyNext.2 with
          | some e => [.applied n ((s.nodes n).lastApplied + 1) e]
          | none => []))

theorem step_cases {W : Wiring Id Addr} {s t : Cluster Id Addr Cmd} {a : Action Id Cmd}
    (h : (raft W Cmd).step s a = some t) : Transition W s a t := by
  cases a with
  | electionTimeout n =>
    simp only [raft, Cluster.step, Cluster.electionTimeout] at h
    split at h
    · cases h
    · rename_i hx
      cases h
      exact .election n hx
  | heartbeat n =>
    simp only [raft, Cluster.step, Cluster.heartbeat] at h
    obtain ⟨loop, hl, ht⟩ := Option.map_eq_some_iff.mp h
    subst ht
    split
    · rename_i hx
      exact .heartbeat n loop hl hx
    · rename_i hx
      exact .heartbeatEnds n hx
  | runTask n k =>
    simp only [raft, Cluster.step, Cluster.runTask] at h
    obtain ⟨task, hk, ht⟩ := Option.map_eq_some_iff.mp h
    subst ht
    cases task with
    | replicateToAll => exact .replicateAll n k hk
    | replicateToPeer origin peer =>
      dsimp only
      split
      · rename_i ha
        exact .send n k origin peer hk ha
      · exact .skip n k
  | deliver k =>
    simp only [raft, Cluster.step, Cluster.deliver] at h
    obtain ⟨rpc, hk, h⟩ := Option.bind_eq_some_iff.mp h
    cases rpc with
    | vote src peer req reply =>
      cases reply with
      | none =>
        obtain ⟨dst, hd, ht⟩ := Option.map_eq_some_iff.mp h
        subst ht
        exact .voteRequest k src peer req dst hk hd
      | some resp =>
        cases h
        exact .voteResponse k src peer req resp hk
    | append src origin peer req nextIdx reply =>
      cases reply with
      | none =>
        obtain ⟨dst, hd, ht⟩ := Option.map_eq_some_iff.mp h
        subst ht
        exact .appendRequest k src origin peer req nextIdx dst hk hd
      | some resp =>
        dsimp only at h
        split at h
        · rename_i ha
          cases h
          exact .appendResponse k src origin peer req nextIdx resp hk ha
        · cases h
          exact .dropResponse k src origin peer req nextIdx resp hk
  | propose n command =>
    cases h
    exact .propose n command
  | finishPropose n k =>
    simp only [raft, Cluster.step, Cluster.finishPropose] at h
    obtain ⟨c, hk, ht⟩ := Option.map_eq_some_iff.mp h
    subst ht
    exact .finish n k c hk
  | applyNext n =>
    simp only [raft, Cluster.step, Cluster.applyNext] at h
    split at h
    · rename_i hx
      cases h
      exact .apply n hx
    · cases h

theorem step_history {W : Wiring Id Addr} {s t : Cluster Id Addr Cmd} {a : Action Id Cmd}
    (hs : (raft W Cmd).step s a = some t) :
    ∃ new, t.history = new ++ s.history := by
  cases step_cases hs <;> exact ⟨_, rfl⟩

theorem request_step {W : Wiring Id Addr} {s t : Cluster Id Addr Cmd} {a : Action Id Cmd}
    (hs : (raft W Cmd).step s a = some t) {src : Id} {origin : Origin} {peer : Addr}
    {req : AppendRequest Id Cmd} {nextIdx : Nat} {reply : Option AppendResponse}
    (hm : .append src origin peer req nextIdx reply ∈ t.net) :
    .append src origin peer req nextIdx reply ∈ s.net ∨
    (∃ dst, reply = some ((s.nodes dst).handleAppendEntries req).2 ∧
      .append src origin peer req nextIdx none ∈ s.net ∧ W.route peer = some dst ∧
      (((s.nodes dst).handleAppendEntries req).2.success = true →
        .accepted dst req.term (req.prevLogIndex + req.entries.length) ∈ t.history)) ∨
    (reply = none ∧ req = (s.nodes src).appendRequest peer ∧
      nextIdx = (s.nodes src).nextIndexOf peer ∧
      .sentAppend src (s.nodes src).state (s.nodes src).currentTerm req ∈ t.history) := by
  cases step_cases hs with
  | election n hx => exact .inl (by simpa using hm)
  | send n k origin' peer' hk ha =>
    cases List.mem_append.mp hm with
    | inl hm => exact .inl hm
    | inr hm =>
      cases List.mem_singleton.mp hm
      refine .inr (.inr ⟨rfl, rfl, rfl, mem_move_history.mpr (.inr (.inl ?_))⟩)
      exact List.mem_singleton_self _
  | voteRequest k src' peer' req' dst hk hd =>
    exact .inl ((List.mem_or_eq_of_mem_set hm).resolve_right (by simp))
  | appendRequest k src' origin' peer' req' nextIdx' dst hk hd =>
    cases List.mem_or_eq_of_mem_set hm with
    | inl hm => exact .inl hm
    | inr hm =>
      cases hm
      refine .inr (.inl ⟨dst, rfl, List.mem_of_getElem? hk, hd, fun hok => ?_⟩)
      rw [if_pos hok]
      exact mem_move_history.mpr (.inr (.inl (List.mem_singleton_self _)))
  | voteResponse k src' peer' req' resp hk => exact .inl (List.mem_of_mem_eraseIdx hm)
  | appendResponse k src' origin' peer' req' nextIdx' resp hk ha =>
    exact .inl (List.mem_of_mem_eraseIdx hm)
  | dropResponse k src' origin' peer' req' nextIdx' resp hk =>
    exact .inl (List.mem_of_mem_eraseIdx hm)
  | _ => exact .inl hm

end DistSync.Raft
