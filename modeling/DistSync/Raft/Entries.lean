import DistSync.Raft.Transition
import DistSync.Raft.Handlers

/-! Where an entry may occur: in a log, or in a request that would install it at the
same place. Steps only copy entries, so each one has the index it was proposed with. -/
namespace DistSync.Raft
open TermLog RaftNode
variable {Id Addr Cmd : Type} [DecidableEq Addr]
variable {W : Wiring Id Addr} {s t : Cluster Id Addr Cmd} {e : LogEntry Id Cmd} {i : Nat}

/-- `e` stands at position `i`, from 0, of a log or of what a request in flight installs. -/
inductive OccursAt (s : Cluster Id Addr Cmd) (e : LogEntry Id Cmd) (i : Nat) : Prop
  | log (n : Id) (h : (s.nodes n).log[i]? = some e) : OccursAt s e i
  | request (src : Id) (origin : Origin) (peer : Addr) (req : AppendRequest Id Cmd)
    (nextIdx : Nat) (reply : Option AppendResponse) (j : Nat)
    (hm : .append src origin peer req nextIdx reply ∈ s.net) (h : req.entries[j]? = some e)
    (hi : i = req.prevLogIndex + j) : OccursAt s e i

/-- `e` is appended at position `i` by `a`: a `no_op`, or the command that `a` proposes. -/
structure Fresh (s : Cluster Id Addr Cmd) (a : Action Id Cmd) (e : LogEntry Id Cmd) (i : Nat) :
    Prop where
  index : e.index = i + 1
  command : (∃ n, e.command = .noOp n) ∨ ∃ n c, a = .propose n c ∧ e.command = .client c ∧
    (s.nodes n).state = .leader ∧ i = (s.nodes n).log.length

theorem appendRequest_entries {x : RaftNode Id Addr Cmd} {peer : Addr} {j : Nat}
    (h : (x.appendRequest peer).entries[j]? = some e) :
    x.log[(x.appendRequest peer).prevLogIndex + j]? = some e := by
  rwa [appendRequest, List.getElem?_drop] at h

omit [DecidableEq Addr] in
theorem getElem?_log_handleAppendEntries {x : RaftNode Id Addr Cmd} {req : AppendRequest Id Cmd}
    (h : (x.handleAppendEntries req).1.log[i]? = some e) :
    x.log[i]? = some e ∨ ∃ j, req.entries[j]? = some e ∧ i = req.prevLogIndex + j := by
  cases Nat.lt_or_ge req.term x.currentTerm with
  | inl hT =>
    rw [handleAppendEntries_old x hT] at h
    exact .inl h
  | inr hT =>
    obtain ⟨log, commit, ok, hout, he⟩ := handleAppendEntries_cases x hT
    rw [he] at h
    cases hout with
    | short => exact .inl h
    | mismatch hp hl ht =>
      have hi := (List.getElem?_eq_some_iff.mp h).1
      rw [List.getElem?_take_of_lt (by simp at hi; omega)] at h
      exact .inl h
    | success hl ht => exact getElem?_splice hl h

omit [DecidableEq Addr] in
theorem getElem?_log_append {x : RaftNode Id Addr Cmd} {command : Command Id Cmd}
    (h : (x.log ++ [x.newEntry command])[i]? = some e) :
    x.log[i]? = some e ∨ e.index = i + 1 ∧ e.command = command ∧ i = x.log.length := by
  rw [List.getElem?_append] at h
  split at h
  · exact .inl h
  · have hi := (List.getElem?_eq_some_iff.mp h).1
    rw [List.length_singleton] at hi
    have he : x.newEntry command = e := by simpa [show i - x.log.length = 0 by omega] using h
    subst he
    exact .inr ⟨show x.log.length + 1 = i + 1 by omega, rfl, by omega⟩

variable [DecidableEq Id]

theorem getElem?_log_step {a : Action Id Cmd} (hs : (raft W Cmd).step s a = some t) {n : Id}
    (h : (t.nodes n).log[i]? = some e) : OccursAt s e i ∨ Fresh s a e i := by
  have hmove {m : Id} {y : RaftNode Id Addr Cmd} {net : List (Rpc Id Addr Cmd)}
      {evs : List (Event Id Cmd)} (h : ((s.move m y net evs).nodes n).log[i]? = some e)
      (hy : y.log[i]? = some e → OccursAt s e i ∨ Fresh s a e i) :
      OccursAt s e i ∨ Fresh s a e i := by
    by_cases hn : n = m
    · subst hn
      rw [move_self] at h
      exact hy h
    · rw [move_of_ne _ _ _ _ hn] at h
      exact .inl (.log n h)
  have hsame {m : Id} {y : RaftNode Id Addr Cmd} {net : List (Rpc Id Addr Cmd)}
      {evs : List (Event Id Cmd)} (h : ((s.move m y net evs).nodes n).log[i]? = some e)
      (hy : y.log = (s.nodes m).log) : OccursAt s e i ∨ Fresh s a e i :=
    hmove h fun h => .inl (.log m (hy ▸ h))
  have hlead {m : Id} {x : RaftNode Id Addr Cmd} (hx : x.log = (s.nodes m).log)
      (h : x.becomeLeader.log[i]? = some e) : OccursAt s e i ∨ Fresh s a e i := by
    cases getElem?_log_append h with
    | inl h => exact .inl (.log m (hx ▸ h))
    | inr h => exact .inr ⟨h.1, .inl ⟨_, h.2.1⟩⟩
  cases step_cases hs with
  | election m hx =>
    by_cases hp : (s.nodes m).peers = []
    · rw [startElection_alone _ hp] at h
      exact hmove h (hlead (x := (s.nodes m).campaign) rfl)
    · rw [startElection_of_peers _ hp] at h
      exact hsame h rfl
  | voteRequest k src peer req dst hk hd => exact hsame h (handleVoteRequest_log _ req)
  | voteResponse k src peer req resp hk =>
    refine hmove h fun h => ?_
    rcases handleVoteResponse_cases (s.nodes src) resp with
      he | ⟨-, -, he⟩ | ⟨-, -, -, he | ⟨-, he⟩⟩ <;> rw [he] at h
    · exact .inl (.log src h)
    · exact .inl (.log src h)
    · exact .inl (.log src h)
    · exact hlead (x := (s.nodes src).recordVote resp.voterId) rfl h
  | appendRequest k src origin peer req nextIdx dst hk hd =>
    refine hmove h fun h => ?_
    cases getElem?_log_handleAppendEntries h with
    | inl h => exact .inl (.log dst h)
    | inr h =>
      obtain ⟨j, hj, hi⟩ := h
      exact .inl (.request src origin peer req nextIdx none j (List.mem_of_getElem? hk) hj hi)
  | appendResponse k src origin peer req nextIdx resp hk ha =>
    exact hsame h (handleAppendEntriesResponse_log ..)
  | propose m command =>
    refine hmove h fun h => ?_
    by_cases hx : (s.nodes m).state = .leader
    · rw [propose_of_leader _ hx] at h
      cases getElem?_log_append h with
      | inl h => exact .inl (.log m h)
      | inr h => exact .inr ⟨h.1, .inr ⟨m, command, rfl, h.2.1, hx, h.2.2⟩⟩
    · rw [propose_of_not_leader _ hx] at h
      exact .inl (.log m h)
  | finish m k c hk => exact hsame h (finishPropose_log ..)
  | _ => exact hsame h rfl

/-- An entry that occurs after a step occurred before at the same place, or was just proposed. -/
theorem occursAt_step {a : Action Id Cmd} (hs : (raft W Cmd).step s a = some t)
    (h : OccursAt t e i) : OccursAt s e i ∨ Fresh s a e i := by
  cases h with
  | log n h => exact getElem?_log_step hs h
  | request src origin peer req nextIdx reply j hm h hi =>
    cases request_step hs hm with
    | inl hm => exact .inl (.request src origin peer req nextIdx reply j hm h hi)
    | inr hm =>
      cases hm with
      | inl hm =>
        obtain ⟨dst, -, hm, -⟩ := hm
        exact .inl (.request src origin peer req nextIdx none j hm h hi)
      | inr hm =>
        obtain ⟨-, rfl, -⟩ := hm
        exact .inl (.log src (hi ▸ appendRequest_entries h))

theorem OccursAt.index {guard : Cluster Id Addr Cmd → Action Id Cmd → Prop}
    (hr : (raft W Cmd).Reach guard s) (h : OccursAt s e i) : e.index = i + 1 := by
  refine hr.invariant (I := fun s => ∀ e i, OccursAt s e i → e.index = i + 1) ?_
    (fun s a t _ hi _ hs e i h => ?_) e i h
  · intro e i h
    cases h with
    | log n h => cases h
    | request _ _ _ _ _ _ _ hm => cases hm
  · cases occursAt_step hs h with
    | inl h => exact hi e i h
    | inr h => exact h.index

end DistSync.Raft
