import DistSync.Raft.StateMachine
import DistSync.Raft.Proposals

/-! Durability. What a `propose` call had in its log as it returned `True` was stored by a quorum,
and remains so. Whoever commits the position of the entry, then or at any later time, has that
entry there, and applies no other. -/
namespace DistSync.Raft
open TermLog RaftNode
variable {Id Addr Cmd : Type} [DecidableEq Id]
variable {W : Wiring Id Addr} {s t : Cluster Id Addr Cmd} {a : Action Id Cmd}

def DurableStep (W : Wiring Id Addr) (s : Cluster Id Addr Cmd) (a : Action Id Cmd) : Prop :=
  SafeStep W s a ∧ KeepsProposals W s a

instance (W : Wiring Id Addr) (s : Cluster Id Addr Cmd) (a : Action Id Cmd) :
    Decidable (DurableStep W s a) := inferInstanceAs (Decidable (_ ∧ _))

def Established (W : Wiring Id Addr) (h : List (Event Id Cmd)) (entry : LogEntry Id Cmd) : Prop :=
  ∃ l b, Safe W h l b ∧ 0 < entry.index ∧ l[entry.index - 1]? = some entry

theorem MachineInv.established (h : MachineInv W s) {n : Id} {entry : LogEntry Id Cmd}
    (hlog : (s.nodes n).log[entry.index - 1]? = some entry) (hpos : 0 < entry.index)
    (hcommit : entry.index ≤ (s.nodes n).commitIndex) : Established W s.history entry := by
  refine ⟨_, _, h.committed n, hpos, ?_⟩
  rwa [List.getElem?_take_of_lt (by omega)]

theorem Established.mono {entry : LogEntry Id Cmd} (h : Established W s.history entry)
    (g : Stage W s t) : Established W t.history entry := by
  obtain ⟨l, b, hsafe, hpos, hl⟩ := h
  exact ⟨l, b, hsafe.mono g le_rfl, hpos, hl⟩

variable [DecidableEq Addr]

theorem established_reach (hW : W.Complete) (h : (raft W Cmd).Reach (DurableStep W) s) {n : Id}
    {entry : LogEntry Id Cmd} {log : List (LogEntry Id Cmd)} {commitIndex : Nat}
    (hret : .returned n entry true log commitIndex ∈ s.history) :
    Established W s.history entry := by
  refine h.invariant (I := fun s => .returned n entry true log commitIndex ∈ s.history →
    Established W s.history entry) (fun hret => by cases hret)
    (fun s a t hr hi ha hs hret => ?_) hret
  have hsafe : (raft W Cmd).Reach (SafeStep W) s := hr.mono fun _ _ hd => hd.1
  have hM := MachineInv.reach hW hsafe (disciplined_of_safeStep hW hsafe)
  have hnext : (raft W Cmd).Reach (SafeStep W) t := .step hsafe ha.1 hs
  have g : Stage W s t := .of_reach hsafe hs (disciplined_of_safeStep hW hnext)
  cases returned_step hs hret with
  | inl hold => exact (hi hold).mono g
  | inr hcall =>
    obtain ⟨c, hc, rfl, hresolved, -, -⟩ := hcall
    have hacc := accounted_reach (hr.mono fun _ _ hd => hd.2) n
    have hlog := hacc.inLog c hc (.inl hresolved.symm)
    exact (hM.established hlog (hacc.pos c hc) (hacc.committed c hc hresolved.symm)).mono g

theorem getElem?_of_comparable {ε : Type} {l l' : List ε} (h : l <+: l' ∨ l' <+: l) {i : Nat}
    (hi : i < l.length) (hi' : i < l'.length) : l[i]? = l'[i]? := by
  rw [List.getElem?_eq_getElem hi, List.getElem?_eq_getElem hi']
  cases h with
  | inl hp => rw [hp.getElem hi]
  | inr hp => rw [hp.getElem hi']

/-- After a `propose` call has returned `True` no node ever commits or applies anything else at the
index of its entry. -/
theorem promised_durable (hW : W.Complete) (h : (raft W Cmd).Reach (DurableStep W) s) {n : Id}
    {entry : LogEntry Id Cmd} {log : List (LogEntry Id Cmd)} {commitIndex : Nat}
    (hret : .returned n entry true log commitIndex ∈ s.history) (m : Id) :
    (entry.index ≤ (s.nodes m).commitIndex → (s.nodes m).log[entry.index - 1]? = some entry) ∧
      (entry.index ≤ (s.nodes m).lastApplied →
        (appliedBy s.history m)[entry.index - 1]? = some (entry.index, entry)) := by
  have hsafe : (raft W Cmd).Reach (SafeStep W) s := h.mono fun _ _ hd => hd.1
  have hdisc := disciplined_of_safeStep hW hsafe
  have hM := MachineInv.reach hW hsafe hdisc
  obtain ⟨l, b, hl, hpos, hentry⟩ := established_reach hW h hret
  have hlen := (List.getElem?_eq_some_iff.mp hentry).1
  have hcommitted (hm : entry.index ≤ (s.nodes m).commitIndex) :
      (s.nodes m).log[entry.index - 1]? = some entry := by
    have hcomparable := hl.comparable hW (.reach hsafe) (.reach hsafe hdisc.elections)
      (.reach hsafe hdisc) (.reach hsafe hdisc) hdisc.elections (hM.committed m)
    have hmlen := List.length_take_of_le (hM.commit_le m)
    rw [← hentry, getElem?_of_comparable hcomparable hlen (by omega),
      List.getElem?_take_of_lt (by omega)]
  refine ⟨hcommitted, fun hm => ?_⟩
  obtain ⟨hfst, hsnd⟩ := hM.applied m
  have hlog := hcommitted (hm.trans (hM.applied_le m))
  have hposition : ((appliedBy s.history m).map Prod.fst)[entry.index - 1]? = some entry.index := by
    rw [hfst, List.getElem?_range' (by omega)]
    congr 1
    omega
  have happlied : ((appliedBy s.history m).map Prod.snd)[entry.index - 1]? = some entry := by
    rw [hsnd, List.getElem?_take_of_lt (by omega), hlog]
  rw [List.getElem?_map] at hposition happlied
  obtain ⟨p, hp, hp1⟩ := Option.map_eq_some_iff.mp hposition
  rw [hp] at happlied
  rw [hp, ← hp1, ← Option.some.inj happlied]

/-- Node 1 hears of the commit after the call has returned, and applies the entry. -/
def toldLater : List (Action (Fin 3) Nat) :=
  firstPromise ++ [.heartbeat 0, .runTask 0 1, .deliver 1, .applyNext 1]

theorem promised_durable_toldLater :
    ∃ s, (raft (mesh 3) Nat).runIf (DurableStep (mesh 3)) (raft (mesh 3) Nat).init toldLater =
        some s ∧
      .returned 0 ⟨1, 1, .noOp 0, none, 0⟩ true [⟨1, 1, .noOp 0, none, 0⟩] 1 ∈ s.history ∧
      (s.nodes 1).lastApplied = 1 ∧
      (appliedBy s.history 1)[0]? = some (1, ⟨1, 1, .noOp 0, none, 0⟩) := by
  have hrun : ((raft (mesh 3) Nat).runIf (DurableStep (mesh 3)) (raft (mesh 3) Nat).init
      toldLater).any (fun s => .returned 0 ⟨1, 1, .noOp 0, none, 0⟩ true
        [⟨1, 1, .noOp 0, none, 0⟩] 1 ∈ s.history ∧ (s.nodes 1).lastApplied = 1) = true := by
    decide +kernel
  obtain ⟨s, hs, hl⟩ := (Option.any_eq_true ..).mp hrun
  obtain ⟨hret, happlied⟩ := of_decide_eq_true hl
  refine ⟨s, hs, hret, happlied, ?_⟩
  exact (promised_durable (mesh_complete 3) (System.Reach.init.runIf hs) hret 1).2 happlied.ge

end DistSync.Raft
