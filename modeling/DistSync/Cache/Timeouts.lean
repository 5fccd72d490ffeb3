import DistSync.Progress
import DistSync.Cache.Provenance

/-! An operation that waits for peers ends without them. When each message it waits for has timed
out it goes on, and no other node has changed. -/
namespace DistSync.Cache
variable {Node Name Task Key Val : Type} [DecidableEq Node] [DecidableEq Name]
  [DecidableEq Task] [DecidableEq Key] [DecidableEq Val]
  {d : Deployment Node Name} {s t : Cluster Node Name Task Key Val}

def TimesOut (task : Task) : Action Node Name Task Key Val → Prop
  | .timeOut task' _ => task' = task
  | .timeOutAnswer task' _ => task' = task
  | .resume task' => task' = task
  | _ => False

/-- The task waits; the nodes and the other tasks are as they were in `s`. -/
structure Suspended (s : Cluster Node Name Task Key Val) (task : Task) (c : Call Node Name Key Val)
    (t : Cluster Node Name Task Key Val) : Prop where
  call : t.calls.get? task = some c
  nodes : t.nodes = s.nodes
  others : ∀ other, other ≠ task → t.calls.get? other = s.calls.get? other

structure Over (s : Cluster Node Name Task Key Val) (task : Task) (n : Node)
    (t : Cluster Node Name Task Key Val) : Prop where
  call : t.calls.get? task = none
  nodes : ∀ m, m ≠ n → t.nodes m = s.nodes m
  others : ∀ other, other ≠ task → t.calls.get? other = s.calls.get? other

def Call.open (c : Call Node Name Key Val) : Nat := c.sent.card + c.answers.card

omit [DecidableEq Node] [DecidableEq Key] in
theorem Suspended.settle {u : Cluster Node Name Task Key Val} {task : Task}
    {c c' : Call Node Name Key Val} (h : Suspended s task c u) (hu : t.nodes = u.nodes)
    (hcalls : t.calls = u.calls) (hnode : c'.node = c.node) (hless : c'.open < c.open) :
    Over s task c.node (t.settle task c') ∨
      ∃ e, Suspended s task e (t.settle task c') ∧ e.node = c.node ∧ e.open < c.open := by
  have hothers (other : Task) (ho : other ≠ task) : t.calls.get? other = s.calls.get? other := by
    rw [hcalls, h.others other ho]
  unfold Cluster.settle
  split
  · refine .inl ⟨?_, fun m _ => ?_, fun other ho => ?_⟩
    · rw [reply_calls, endCall_calls, Dict.get?_erase, if_pos rfl]
    · rw [reply_nodes, endCall_nodes, hu, h.nodes]
    · rw [reply_calls, endCall_calls, Dict.get?_erase, if_neg ho, hothers other ho]
  · refine .inr ⟨c', ⟨?_, ?_, fun other ho => ?_⟩, hnode, hless⟩
    · rw [setCall_calls, Dict.get?_set, if_pos rfl]
    · rw [setCall_nodes, hu, h.nodes]
    · rw [setCall_calls, Dict.get?_set, if_neg ho.symm, hothers other ho]

omit [DecidableEq Name] [DecidableEq Task] [DecidableEq Val] in
theorem invalidated_of_ne {m n : Node} (hm : m ≠ n) (key : Key) (goal : Goal Val) :
    (s.invalidated d n key goal).nodes m = s.nodes m := by
  cases goal with
  | read => rfl
  | write value => rw [invalidated_write_nodes, setNode_of_ne _ _ hm]
  | delete =>
    rw [Cluster.invalidated, reply_nodes, setNode_of_ne _ _ hm]

omit [DecidableEq Name] [DecidableEq Val] in
theorem Suspended.resume {u : Cluster Node Name Task Key Val} {task : Task}
    {c : Call Node Name Key Val} (h : Suspended s task c u) :
    Over s task c.node ((u.endCall task).invalidated d c.node c.key c.goal) := by
  refine ⟨?_, fun m hm => ?_, fun other ho => ?_⟩
  · rw [invalidated_calls, endCall_calls, Dict.get?_erase, if_pos rfl]
  · rw [invalidated_of_ne hm, endCall_nodes, h.nodes]
  · rw [invalidated_calls, endCall_calls, Dict.get?_erase, if_neg ho, h.others other ho]

def ReadsOpen (s : Cluster Node Name Task Key Val) : Prop :=
  ∀ task c, s.calls.get? task = some c → c.goal = .read → ¬ c.Done

omit [DecidableEq Node] [DecidableEq Name] [DecidableEq Key] [DecidableEq Val] in
theorem ReadsOpen.congr (h : ReadsOpen s) (hc : t.calls = s.calls) : ReadsOpen t := by
  unfold ReadsOpen
  rwa [hc]

omit [DecidableEq Node] [DecidableEq Name] [DecidableEq Key] [DecidableEq Val] in
theorem ReadsOpen.endCall (h : ReadsOpen s) (task : Task) : ReadsOpen (s.endCall task) := by
  intro task' c hc
  rw [endCall_calls, Dict.get?_erase] at hc
  split at hc
  · cases hc
  · exact h task' c hc

omit [DecidableEq Node] [DecidableEq Name] [DecidableEq Key] [DecidableEq Val] in
theorem ReadsOpen.setCall (h : ReadsOpen s) (task : Task) {c : Call Node Name Key Val}
    (hopen : c.goal = .read → ¬ c.Done) : ReadsOpen (s.setCall task c) := by
  intro task' c' hc
  rw [setCall_calls, Dict.get?_set] at hc
  split at hc
  · cases hc
    exact hopen
  · exact h task' c' hc

omit [DecidableEq Node] [DecidableEq Key] in
theorem ReadsOpen.settle (h : ReadsOpen s) (task : Task) (c : Call Node Name Key Val) :
    ReadsOpen (s.settle task c) := by
  unfold Cluster.settle
  split
  · exact (h.endCall task).congr rfl
  · rename_i hopen
    exact h.setCall task fun hgoal hdone => hopen ⟨hgoal, hdone⟩

theorem ReadsOpen.step {a : Action Node Name Task Key Val} (h : ReadsOpen s)
    (ht : Transition d s a t) : ReadsOpen t := by
  have hnode (n : Node) (x : CacheNode Name Key Val) : ReadsOpen (s.setNode n x) := h.congr rfl
  cases ht with
  | readHit n task key value hr => exact h.congr rfl
  | readAlone n task key hr hpeers => exact h.congr rfl
  | readFetch n task key htask hr hpeers =>
    exact (hnode n _).setCall task fun _ hdone => hpeers (Multiset.coe_eq_zero _ |>.mp hdone.1)
  | writeOwned n task key value howns => exact h.congr rfl
  | writeAlone n task key value howns htargets => exact (hnode n _).congr (invalidated_calls ..)
  | writeAsk n task key value htask howns htargets => exact (hnode n _).setCall task nofun
  | deleteAlone n task key htargets => exact h.congr (invalidated_calls ..)
  | deleteAsk n task key htask htargets => exact h.setCall task nofun
  | handle task name c q hc hname hq =>
    exact (hnode q _).setCall task fun _ hdone => Multiset.cons_ne_zero hdone.2
  | handleStray name r q hr hq => exact h.congr rfl
  | drop name r hr => exact h.congr rfl
  | found task c value state nodeId hc hgoal ha => exact (h.endCall task).congr (found_calls ..)
  | receive task a c hc ha hkind => exact h.settle task _
  | timeOut task name c hc hname =>
    have hstray := h.congr (t := s.addStray {name} (c.request d)) rfl
    exact hstray.settle task _
  | timeOutAnswer task a c hc ha => exact h.settle task _
  | resume task c hc hgoal hdone => exact (h.endCall task).congr (invalidated_calls ..)
  | update n key value version => exact h.congr rfl

theorem readsOpen (h : (cluster d).Reachable s) : ReadsOpen s := by
  have hempty : ReadsOpen ((cluster d).init : Cluster Node Name Task Key Val) := nofun
  exact h.invariant (I := ReadsOpen) hempty fun s a t _ hs _ ht => hs.step (step_cases ht)

/-- The task has a next step of its own: a timeout while something is under way, then the rest of
the operation. -/
theorem Suspended.advance {u : Cluster Node Name Task Key Val} {task : Task}
    {c : Call Node Name Key Val} (h : Suspended s task c u) (hopen : ReadsOpen u) :
    ∃ a t, TimesOut task a ∧ (cluster d).step u a = some t ∧ (Over s task c.node t ∨
      ∃ c', Suspended s task c' t ∧ c'.node = c.node ∧ c'.open < c.open) := by
  by_cases hsent : c.sent = 0
  · by_cases hanswers : c.answers = 0
    · have hgoal : c.goal ≠ .read := fun hgoal => hopen task c h.call hgoal ⟨hsent, hanswers⟩
      have hstep : (cluster d).step u (.resume task) =
          some ((u.endCall task).invalidated d c.node c.key c.goal) := by
        simp [cluster, Cluster.step, Cluster.resume, h.call, hgoal, Call.Done, hsent, hanswers]
      exact ⟨.resume task, _, rfl, hstep, .inl h.resume⟩
    · obtain ⟨a, ha⟩ := Multiset.exists_mem_of_ne_zero hanswers
      have hstep : (cluster d).step u (.timeOutAnswer task a) =
          some (u.settle task { c with answers := c.answers.erase a }) := by
        simp [cluster, Cluster.step, Cluster.timeOutAnswer, h.call, ha]
      refine ⟨.timeOutAnswer task a, _, rfl, hstep, ?_⟩
      have hless : ({ c with answers := c.answers.erase a } : Call ..).open < c.open :=
        Nat.add_lt_add_left (Multiset.card_erase_lt_of_mem ha) _
      exact h.settle rfl rfl rfl hless
  · obtain ⟨name, hname⟩ := Multiset.exists_mem_of_ne_zero hsent
    have hstep : (cluster d).step u (.timeOut task name) = some
        ((u.addStray {name} (c.request d)).settle task { c with sent := c.sent.erase name }) := by
      simp [cluster, Cluster.step, Cluster.timeOut, h.call, hname]
    refine ⟨.timeOut task name, _, rfl, hstep, ?_⟩
    have hless : ({ c with sent := c.sent.erase name } : Call ..).open < c.open :=
      Nat.add_lt_add_right (Multiset.card_erase_lt_of_mem hname) _
    exact h.settle rfl rfl rfl hless

/-- Each operation that waits for peers ends even if no peer ever answers, by timeouts of its own:
no other node changes, and no other operation. -/
theorem call_ends (h : (cluster d).Reachable s) {task : Task} {c : Call Node Name Key Val}
    (hc : s.calls.get? task = some c) :
    ∃ t, (cluster d).Leads (fun _ a => TimesOut task a) s t ∧ Over s task c.node t := by
  let P (u : Cluster Node Name Task Key Val) : Prop :=
    ReadsOpen u ∧ ∃ c', Suspended s task c' u ∧ c'.node = c.node
  refine System.Leads.descend (P := P)
    (fun u => ((u.calls.get? task).map Call.open).getD 0) (fun u hu => ?_)
    (⟨readsOpen h, c, ⟨hc, rfl, fun _ _ => rfl⟩, rfl⟩ : P s)
  obtain ⟨hopen, c', hp, hnode⟩ := hu
  obtain ⟨a, t, ha, hstep, ht⟩ := hp.advance (d := d) hopen
  refine ⟨t, .of_step ha hstep, ht.imp (hnode ▸ id) fun ⟨c'', hp', hnode', hless⟩ => ?_⟩
  refine ⟨⟨hopen.step (step_cases hstep), c'', hp', hnode'.trans hnode⟩, ?_⟩
  rwa [hp.call, hp'.call, Option.map_some, Option.map_some, Option.getD_some, Option.getD_some]

theorem call_ends_unanswered : ∃ s t, pair.run pair.init [.read 0 7 "k"] = some s ∧
    pair.Leads (fun _ a => TimesOut 7 a) s t ∧ Over s 7 0 t := by
  have hrun : (pair.run pair.init [.read 0 7 "k"]).any (fun s =>
      ((s.calls.get? 7).map Call.node) = some 0) = true := by
    decide +kernel
  obtain ⟨s, hs, hcall⟩ := (Option.any_eq_true ..).mp hrun
  obtain ⟨c, hc, hnode⟩ := Option.map_eq_some_iff.mp (of_decide_eq_true hcall)
  obtain ⟨t, hst, ht⟩ := call_ends (System.reachable_run hs) hc
  exact ⟨s, t, hs, hst, hnode ▸ ht⟩

end DistSync.Cache
