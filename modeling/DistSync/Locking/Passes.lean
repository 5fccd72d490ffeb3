import DistSync.Locking.Abort

/-! How long the deadlock detector is busy. An abort adds no edge to the wait-for graph and frees
its victim of all edges, so no client is a victim twice, and the passes end without a cycle. -/
namespace DistSync.Locking
variable {Client Resource Request : Type}
  [DecidableEq Client] [DecidableEq Resource] [DecidableEq Request]
variable {m m' : LockManager Client Resource Request}

/-- A round of `_deadlock_detector` that finds a cycle, from one state of the lock manager to the
next: the `lock_abort` commands of the victim are applied before any other. -/
inductive DetectorPass (m : LockManager Client Resource Request) :
    LockManager Client Resource Request → Prop
  | abort (order : Client → List Client) (ho : m.wfg.Enumerates order) (cycle : List Client)
      (hd : m.wfg.detectCycle order = some cycle) (victim : Client)
      (hv : WaitForGraph.getVictim cycle = some victim) (rs : List (Rat × Resource))
      (hrs : m.AbortOrder victim (rs.map Prod.snd)) : DetectorPass m (m.abortAll victim rs)

def WaitForGraph.awaited (g : WaitForGraph Client) : Finset Client :=
  g.graph.keys.toFinset.biUnion g.edges

theorem WaitForGraph.mem_awaited {g : WaitForGraph Client} {b : Client} :
    b ∈ g.awaited ↔ ∃ a, b ∈ g.edges a := by
  simp only [awaited, Finset.mem_biUnion, List.mem_toFinset]
  constructor
  · intro hx
    obtain ⟨a, -, hb⟩ := hx
    exact ⟨a, hb⟩
  · intro hx
    obtain ⟨a, hb⟩ := hx
    exact ⟨a, (mem_nodes_of_edge hb).1, hb⟩

theorem abortAll_reach (h : (manager Client Resource Request).Reachable m) (victim : Client)
    (rs : List (Rat × Resource)) :
    (manager Client Resource Request).Reachable (m.abortAll victim rs) := by
  induction rs generalizing m with
  | nil => exact h
  | cons e rs ih => exact ih (.step (a := (e.1, .abort victim e.2)) h trivial rfl)

theorem DetectorPass.reach (h : (manager Client Resource Request).Reachable m)
    (hp : DetectorPass m m') : (manager Client Resource Request).Reachable m' := by
  cases hp with
  | abort order ho cycle hd victim hv rs hrs => exact abortAll_reach h victim rs

theorem isolated_abortAll_of_awaited (h : (manager Client Resource Request).Reachable m)
    {victim : Client} (hv : victim ∈ m.wfg.awaited) {rs : List (Rat × Resource)}
    (hrs : m.AbortOrder victim (rs.map Prod.snd)) :
    (m.abortAll victim rs).wfg.Isolated victim := by
  obtain ⟨T, href, hbooks⟩ := books_reach h
  obtain ⟨a, ha⟩ := WaitForGraph.mem_awaited.mp hv
  obtain ⟨r, hr⟩ := holdersAwaited_reach h a victim ha
  have hmem (r : Resource) : r ∈ rs.map Prod.snd ↔ m.Holds victim r :=
    (hrs.mem r).trans ((hbooks victim r).trans href.holds_iff.symm)
  cases rs with
  | nil => cases (hmem r).mpr hr
  | cons e rs => exact href.isolated_abortAll ((hmem e.2).mp List.mem_cons_self) rs

/-- Somebody was waited for before the pass and is not any more. -/
theorem DetectorPass.awaited_ssubset (h : (manager Client Resource Request).Reachable m)
    (hp : DetectorPass m m') : m'.wfg.awaited ⊂ m.wfg.awaited := by
  cases hp with
  | abort order ho cycle hd victim hv rs hrs =>
    obtain ⟨T, href⟩ := exists_refines h
    have hc := WaitForGraph.isCycle_of_detectCycle ho hd
    have hbefore : victim ∈ m.wfg.awaited :=
      WaitForGraph.mem_awaited.mpr (hc.exists_edge (List.mem_of_getLast? hv))
    have hafter : victim ∉ (m.abortAll victim rs).wfg.awaited := by
      intro hmem
      obtain ⟨a, ha⟩ := WaitForGraph.mem_awaited.mp hmem
      exact (isolated_abortAll_of_awaited h hbefore hrs a).1 ha
    refine ⟨fun b hb => ?_, fun hsub => hafter (hsub hbefore)⟩
    obtain ⟨a, ha⟩ := WaitForGraph.mem_awaited.mp hb
    exact WaitForGraph.mem_awaited.mpr ⟨a, href.edges_abortAll rs ha⟩

theorem exists_detectorPass {a : Client}
    (ha : Relation.TransGen (fun a b => b ∈ m.wfg.edges a) a a) : ∃ m', DetectorPass m m' := by
  have ho : m.wfg.Enumerates fun a => (m.wfg.edges a).toList :=
    ⟨fun a b => Finset.mem_toList, fun a => Finset.nodup_toList _⟩
  obtain ⟨cycle, hd, hc⟩ := WaitForGraph.detectCycle_of_transGen ho ha
  have hv : WaitForGraph.getVictim cycle = some (cycle.getLast hc.ne_nil) :=
    List.getLast?_eq_some_getLast hc.ne_nil
  refine ⟨_, .abort _ ho cycle hd _ hv
    ((m.clientLocks (cycle.getLast hc.ne_nil)).toList.map fun r => (0, r)) ?_⟩
  rw [List.map_map]
  constructor
  · simp
  · simpa using Finset.nodup_toList _

/-- The detector that goes on aborting ends after at most as many passes as clients were waited
for, and when it can do no more nobody waits in a circle. -/
theorem detectorPasses_end (h : (manager Client Resource Request).Reachable m)
    (ms : List (LockManager Client Resource Request)) (hp : (m :: ms).IsChain DetectorPass) :
    ms.length ≤ m.wfg.awaited.card ∧
      ((∀ m', ¬ DetectorPass ((m :: ms).getLast (List.cons_ne_nil m ms)) m') → ∀ a,
        ¬ Relation.TransGen
          (fun a b => b ∈ ((m :: ms).getLast (List.cons_ne_nil m ms)).wfg.edges a) a a) := by
  refine ⟨?_, fun hend a ha => ?_⟩
  · induction ms generalizing m with
    | nil => exact Nat.zero_le _
    | cons m' ms ih =>
      obtain ⟨hpass, hrest⟩ := List.isChain_cons_cons.mp hp
      have hlt := Finset.card_lt_card (hpass.awaited_ssubset h)
      exact (Nat.succ_le_succ (ih (hpass.reach h) hrest)).trans hlt
  · obtain ⟨m', hm'⟩ := exists_detectorPass ha
    exact hend m' hm'

theorem detectorPasses_end_crossed : ∃ m, (manager Nat Nat Nat).run (manager Nat Nat Nat).init
    crossed = some m ∧ DetectorPass m (m.abortAll 1 [(4, 1)]) ∧
    [m.abortAll 1 [(4, 1)]].length ≤ m.wfg.awaited.card := by
  have hrun : ((manager Nat Nat Nat).run (manager Nat Nat Nat).init crossed).any (fun m =>
      m.wfg.detectCycle (byNumber m.wfg) = some [0, 1] ∧ m.clientLocks 1 = {1}) = true := by
    decide +kernel
  obtain ⟨m, hm, hh⟩ := (Option.any_eq_true ..).mp hrun
  obtain ⟨hd, hlocks⟩ := of_decide_eq_true hh
  have horder : m.AbortOrder 1 [1] := ⟨fun r => by simp [hlocks], List.nodup_singleton 1⟩
  have hpass : DetectorPass m (m.abortAll 1 [(4, 1)]) :=
    .abort _ (enumerates_byNumber m.wfg) [0, 1] hd 1 rfl [(4, 1)] horder
  exact ⟨m, hm, hpass, (detectorPasses_end (System.reachable_run hm) [m.abortAll 1 [(4, 1)]]
    (.cons_cons hpass (.singleton _))).1⟩

end DistSync.Locking
