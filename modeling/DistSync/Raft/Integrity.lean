import DistSync.Raft.StateMachine
import DistSync.Raft.Entries

/-! Integrity. Whatever is lost, however many leaders there are, no state machine is handed a
command more often than it was proposed: an entry keeps the position that it was proposed for, and
the apply loop passes each position once. -/
namespace DistSync.Raft
variable {Id Addr Cmd : Type} [DecidableEq Id] [DecidableEq Addr] [DecidableEq Cmd]
variable {W : Wiring Id Addr} {s t : Cluster Id Addr Cmd} {a : Action Id Cmd} {c : Cmd}
  {places : Finset Nat}

def proposes (c : Cmd) : Action Id Cmd → Bool
  | .propose _ d => d = c
  | _ => false

omit [DecidableEq Cmd] in
theorem applied_cases (hs : (raft W Cmd).step s a = some t) (n : Id) :
    (s.nodes n).lastApplied ≤ (t.nodes n).lastApplied ∧
      (appliedBy t.history n = appliedBy s.history n ∨
        (t.nodes n).lastApplied = (s.nodes n).lastApplied + 1 ∧
          ∃ e, (s.nodes n).log[(s.nodes n).lastApplied]? = some e ∧
            appliedBy t.history n =
              appliedBy s.history n ++ [((s.nodes n).lastApplied + 1, e)]) := by
  cases applied_step hs n with
  | inl hsame => exact ⟨hsame.1.ge, .inl hsame.2⟩
  | inr hnext =>
    obtain ⟨ha, hlt, -, hla, happ⟩ := hnext
    refine ⟨by omega, ?_⟩
    cases he : (s.nodes n).log[(s.nodes n).lastApplied]? with
    | some e => exact .inr ⟨hla, e, rfl, happ e he⟩
    | none =>
      subst ha
      have hnone : (s.nodes n).applyNext.2 = none := he
      simp only [raft, Cluster.step, Cluster.applyNext, if_pos hlt, hnone, Option.some.injEq] at hs
      subst hs
      left
      rw [move_history, List.append_nil]
      exact applied_append (fun k i e ho => by cases ofLeader_of_mem_observe ho) _ n

omit [DecidableEq Cmd] in
theorem positions_reach (h : (raft W Cmd).Reachable s) (n : Id) :
    ((appliedBy s.history n).map Prod.fst).Pairwise (· < ·) ∧
      ∀ p ∈ appliedBy s.history n, 0 < p.1 ∧ p.1 ≤ (s.nodes n).lastApplied := by
  refine h.invariant (I := fun s => ((appliedBy s.history n).map Prod.fst).Pairwise (· < ·) ∧
    ∀ p ∈ appliedBy s.history n, 0 < p.1 ∧ p.1 ≤ (s.nodes n).lastApplied)
    ⟨.nil, by simp [raft, appliedBy]⟩ fun s a t _ hi _ hs => ?_
  obtain ⟨hsorted, hle⟩ := hi
  obtain ⟨hla, happ | ⟨hla', e, -, happ⟩⟩ := applied_cases hs n
  · rw [happ]
    exact ⟨hsorted, fun p hp => ⟨(hle p hp).1, (hle p hp).2.trans hla⟩⟩
  · rw [happ, List.map_append]
    constructor
    · refine List.pairwise_append.mpr ⟨hsorted, List.pairwise_singleton .., fun i hi j hj => ?_⟩
      obtain ⟨p, hp, rfl⟩ := List.mem_map.mp hi
      have hlt := (hle p hp).2
      have hj : j = (s.nodes n).lastApplied + 1 := List.mem_singleton.mp hj
      omega
    · intro p hp
      cases List.mem_append.mp hp with
      | inl hp =>
        have hlt := hle p hp
        omega
      | inr hp =>
        rw [List.mem_singleton.mp hp, hla']
        exact ⟨Nat.succ_pos _, le_rfl⟩

structure Placed (c : Cmd) (s : Cluster Id Addr Cmd) (places : Finset Nat) : Prop where
  occurs : ∀ e i, OccursAt s e i → e.command = .client c → i ∈ places
  applied : ∀ n, ∀ p ∈ appliedBy s.history n, p.2.command = .client c → p.1 - 1 ∈ places

theorem Placed.step (h : Placed c s places) (hs : (raft W Cmd).step s a = some t) :
    ∃ places', Placed c t places' ∧
      places'.card ≤ places.card + if proposes c a then 1 else 0 := by
  have hkept {places' : Finset Nat} (hsub : places ⊆ places')
      (hnew : ∀ e i, Fresh s a e i → e.command = .client c → i ∈ places') :
      Placed c t places' := by
    refine ⟨fun e i ho hc => ?_, fun n p hp hc => ?_⟩
    · cases occursAt_step hs ho with
      | inl ho => exact hsub (h.occurs e i ho hc)
      | inr hf => exact hnew e i hf hc
    · obtain ⟨-, happ | ⟨-, e, he, happ⟩⟩ := applied_cases hs n
      · exact hsub (h.applied n p (happ ▸ hp) hc)
      · rw [happ] at hp
        cases List.mem_append.mp hp with
        | inl hp => exact hsub (h.applied n p hp hc)
        | inr hp =>
          cases List.mem_singleton.mp hp
          exact hsub (h.occurs e _ (.log n he) hc)
  by_cases ha : ∃ n, a = .propose n c
  · obtain ⟨n, rfl⟩ := ha
    refine ⟨insert (s.nodes n).log.length places, hkept (Finset.subset_insert ..) ?_, ?_⟩
    · intro e i hf hc
      rcases hf.command with ⟨m, hm⟩ | ⟨m, d, hd, -, -, hi⟩
      · cases hc.symm.trans hm
      · cases hd
        exact hi ▸ Finset.mem_insert_self ..
    · simpa [proposes] using Finset.card_insert_le _ places
  · refine ⟨places, hkept (Finset.Subset.refl _) ?_, Nat.le_add_right ..⟩
    intro e i hf hc
    rcases hf.command with ⟨m, hm⟩ | ⟨m, d, hd, hed, -⟩
    · cases hc.symm.trans hm
    · cases hc.symm.trans hed
      exact absurd ⟨m, hd⟩ ha

theorem exists_placed {as : List (Action Id Cmd)}
    (hr : (raft W Cmd).run (raft W Cmd).init as = some s) (c : Cmd) :
    ∃ places, Placed c s places ∧ places.card ≤ as.countP (proposes c) := by
  refine System.run_invariant (I := fun as s => ∃ places, Placed c s places ∧
    places.card ≤ as.countP (proposes c)) ⟨∅, ⟨fun e i ho => ?_, ?_⟩, le_rfl⟩ ?_ hr
  · cases ho with
    | log n h => cases h
    | request _ _ _ _ _ _ _ hm => cases hm
  · intro n p hp
    cases hp
  · intro as a s t _ hi hs
    obtain ⟨places, hplaced, hcard⟩ := hi
    obtain ⟨places', hplaced', hcard'⟩ := hplaced.step hs
    refine ⟨places', hplaced', ?_⟩
    rw [List.countP_append, List.countP_singleton]
    omega

/-- In every run, each node applies a command at most as often as it was proposed. -/
theorem applied_le_proposed {as : List (Action Id Cmd)}
    (hr : (raft W Cmd).run (raft W Cmd).init as = some s) (n : Id) (c : Cmd) :
    (appliedBy s.history n).countP (fun p => p.2.command = .client c) ≤
      as.countP (proposes c) := by
  obtain ⟨places, hplaced, hcard⟩ := exists_placed hr c
  obtain ⟨hsorted, hpos⟩ := positions_reach (System.reachable_run hr) n
  refine le_trans ?_ hcard
  rw [List.countP_eq_length_filter]
  have hmem (p : Nat × LogEntry Id Cmd)
      (hp : p ∈ (appliedBy s.history n).filter fun p => p.2.command = .client c) :
      p ∈ appliedBy s.history n ∧ p.2.command = .client c := by simpa using hp
  generalize hl : (appliedBy s.history n).filter _ = l at *
  have hnodup : (l.map fun p => p.1 - 1).Nodup := by
    have hlt : l.Pairwise fun p q => p.1 < q.1 :=
      hl ▸ (List.pairwise_map.mp hsorted).filter _
    refine List.pairwise_map.mpr (hlt.imp_of_mem fun {p q} hp hq hlt => ?_)
    have hp0 := (hpos p (hmem p hp).1).1
    omega
  have hsub : (l.map fun p => p.1 - 1).toFinset ⊆ places := by
    intro i hi
    obtain ⟨p, hp, rfl⟩ := List.mem_map.mp (List.mem_toFinset.mp hi)
    exact hplaced.applied n p (hmem p hp).1 (hmem p hp).2
  have hle := Finset.card_le_card hsub
  rwa [List.toFinset_card_of_nodup hnodup, List.length_map] at hle

/-- Command 7 is proposed to the leader and to a follower, and applied by the leader. -/
def proposedTwice : List (Action (Fin 3) Nat) :=
  [.electionTimeout 0, .deliver 0, .deliver 0, .propose 0 7, .propose 1 7, .runTask 0 0,
   .runTask 0 1, .deliver 1, .deliver 1, .applyNext 0, .applyNext 0]

theorem applied_le_proposed_proposedTwice :
    ∃ s, (raft (mesh 3) Nat).run (raft (mesh 3) Nat).init proposedTwice = some s ∧
      (appliedBy s.history 0).map (fun p => p.2.command) = [.noOp 0, .client 7] ∧
      (appliedBy s.history 0).countP (fun p => p.2.command = .client 7) ≤
        proposedTwice.countP (proposes 7) := by
  have hrun : ((raft (mesh 3) Nat).run (raft (mesh 3) Nat).init proposedTwice).any (fun s =>
      (appliedBy s.history 0).map (fun p => p.2.command) = [.noOp 0, .client 7]) = true := by
    decide +kernel
  obtain ⟨s, hs, hl⟩ := (Option.any_eq_true ..).mp hrun
  exact ⟨s, hs, of_decide_eq_true hl, applied_le_proposed hs 0 7⟩

end DistSync.Raft
