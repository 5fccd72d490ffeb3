import DistSync.Cache.Cluster

/-! Inversion of the cluster's steps, said once: which guards an enabled action had and what
nodes, calls and replies it leaves behind. -/
namespace DistSync.Cache
variable {Node Name Task Key Val : Type}

section Replies
variable (s : Cluster Node Name Task Key Val) (names : Multiset Name) (q : Request Name Key)
  (r : Reply Node Key Val)

@[simp] theorem addStray_nodes : (s.addStray names q).nodes = s.nodes := rfl

@[simp] theorem addStray_calls : (s.addStray names q).calls = s.calls := rfl

@[simp] theorem addStray_history : (s.addStray names q).history = s.history := rfl

@[simp] theorem reply_nodes : (s.reply r).nodes = s.nodes := rfl

@[simp] theorem reply_calls : (s.reply r).calls = s.calls := rfl

@[simp] theorem reply_stray : (s.reply r).stray = s.stray := rfl

@[simp] theorem reply_history : (s.reply r).history = r :: s.history := rfl

end Replies

section Calls
variable [DecidableEq Task] (s : Cluster Node Name Task Key Val) (task : Task)
  (c : Call Node Name Key Val)

@[simp] theorem setCall_nodes : (s.setCall task c).nodes = s.nodes := rfl

@[simp] theorem setCall_calls : (s.setCall task c).calls = s.calls.set task c := rfl

@[simp] theorem setCall_stray : (s.setCall task c).stray = s.stray := rfl

@[simp] theorem setCall_history : (s.setCall task c).history = s.history := rfl

@[simp] theorem endCall_nodes : (s.endCall task).nodes = s.nodes := rfl

@[simp] theorem endCall_calls : (s.endCall task).calls = s.calls.erase task := rfl

@[simp] theorem endCall_stray : (s.endCall task).stray = s.stray := rfl

@[simp] theorem endCall_history : (s.endCall task).history = s.history := rfl

variable [DecidableEq Name] [DecidableEq Val]

@[simp] theorem settle_nodes : (s.settle task c).nodes = s.nodes := by
  simp only [Cluster.settle]
  split <;> rfl

@[simp] theorem settle_stray : (s.settle task c).stray = s.stray := by
  simp only [Cluster.settle]
  split <;> rfl

end Calls

section Nodes
variable [DecidableEq Node] (s : Cluster Node Name Task Key Val) (n : Node)
  (x : CacheNode Name Key Val)

@[simp] theorem setNode_self : (s.setNode n x).nodes n = x := Function.update_self ..

@[simp] theorem setNode_calls : (s.setNode n x).calls = s.calls := rfl

@[simp] theorem setNode_stray : (s.setNode n x).stray = s.stray := rfl

@[simp] theorem setNode_history : (s.setNode n x).history = s.history := rfl

variable {n} in
theorem setNode_of_ne {m : Node} (h : m ≠ n) : (s.setNode n x).nodes m = s.nodes m :=
  Function.update_of_ne h ..

variable [DecidableEq Key] (d : Deployment Node Name) (key : Key)

@[simp] theorem invalidated_calls (goal : Goal Val) :
    (s.invalidated d n key goal).calls = s.calls := by
  cases goal with
  | read => rfl
  | write value =>
    simp only [Cluster.invalidated]
    split <;> rfl
  | delete => rfl

@[simp] theorem invalidated_stray (goal : Goal Val) :
    (s.invalidated d n key goal).stray = s.stray := by
  cases goal with
  | read => rfl
  | write value =>
    simp only [Cluster.invalidated]
    split <;> rfl
  | delete => rfl

theorem invalidated_write_nodes (value : Option Val) :
    (s.invalidated d n key (.write value)).nodes =
      (s.setNode n ((s.nodes n).writeInvalidated (d.nodeId n) key value).2).nodes := by
  simp only [Cluster.invalidated]
  split <;> rfl

theorem setNode_invalidated_nodes (value : Option Val) :
    ((s.setNode n x).invalidated d n key (.write value)).nodes =
      (s.setNode n (x.writeInvalidated (d.nodeId n) key value).2).nodes := by
  rw [invalidated_write_nodes, setNode_self]
  exact Function.update_idem ..

variable [DecidableEq Name]

@[simp] theorem found_calls (value : Option Val) (source : Name) :
    (s.found d n key value source).calls = s.calls := by
  simp only [Cluster.found]
  split
  · rfl
  · split <;> rfl

@[simp] theorem found_stray (value : Option Val) (source : Name) :
    (s.found d n key value source).stray = s.stray := by
  simp only [Cluster.found]
  split
  · rfl
  · split <;> rfl

theorem found_some_nodes (v : Val) (source : Name) :
    (s.found d n key (some v) source).nodes =
      (s.setNode n ((s.nodes n).readFetched (d.nodeId n) key v (some source)).2).nodes := by
  simp only [Cluster.found]
  split <;> rfl

end Nodes

variable [DecidableEq Node] [DecidableEq Name] [DecidableEq Task] [DecidableEq Key]
  [DecidableEq Val]

inductive Transition (d : Deployment Node Name) (s : Cluster Node Name Task Key Val) :
    Action Node Name Task Key Val → Cluster Node Name Task Key Val → Prop
  | readHit (n : Node) (task : Task) (key : Key) (value : Option Val)
      (hr : ((s.nodes n).read key).1 = some value) :
    Transition d s (.read n task key)
      ((s.setNode n ((s.nodes n).read key).2).reply (.value n key value))
  | readAlone (n : Node) (task : Task) (key : Key) (hr : ((s.nodes n).read key).1 = none)
      (hpeers : d.peers n = []) :
    Transition d s (.read n task key)
      ((s.setNode n ((s.nodes n).read key).2).reply (.value n key none))
  | readFetch (n : Node) (task : Task) (key : Key) (htask : task ∉ s.calls.keys)
      (hr : ((s.nodes n).read key).1 = none) (hpeers : d.peers n ≠ []) :
    Transition d s (.read n task key)
      ((s.setNode n ((s.nodes n).read key).2).setCall task ⟨n, key, .read, d.peers n, 0⟩)
  | writeOwned (n : Node) (task : Task) (key : Key) (value : Option Val)
      (howns : (s.nodes n).Owns key) :
    Transition d s (.write n task key value)
      ((s.setNode n ((s.nodes n).write key value).2).reply (.written n key value))
  | writeAlone (n : Node) (task : Task) (key : Key) (value : Option Val)
      (howns : ¬ (s.nodes n).Owns key)
      (htargets : (s.nodes n).targets (d.nodeId n) key (d.peers n) = ∅) :
    Transition d s (.write n task key value)
      ((s.setNode n ((s.nodes n).write key value).2).invalidated d n key (.write value))
  | writeAsk (n : Node) (task : Task) (key : Key) (value : Option Val)
      (htask : task ∉ s.calls.keys) (howns : ¬ (s.nodes n).Owns key)
      (htargets : (s.nodes n).targets (d.nodeId n) key (d.peers n) ≠ ∅) :
    Transition d s (.write n task key value)
      ((s.setNode n ((s.nodes n).write key value).2).setCall task
        ⟨n, key, .write value, ((s.nodes n).targets (d.nodeId n) key (d.peers n)).val, 0⟩)
  | deleteAlone (n : Node) (task : Task) (key : Key)
      (htargets : (s.nodes n).targets (d.nodeId n) key (d.peers n) = ∅) :
    Transition d s (.delete n task key) (s.invalidated d n key .delete)
  | deleteAsk (n : Node) (task : Task) (key : Key) (htask : task ∉ s.calls.keys)
      (htargets : (s.nodes n).targets (d.nodeId n) key (d.peers n) ≠ ∅) :
    Transition d s (.delete n task key)
      (s.setCall task
        ⟨n, key, .delete, ((s.nodes n).targets (d.nodeId n) key (d.peers n)).val, 0⟩)
  | handle (task : Task) (name : Name) (c : Call Node Name Key Val) (q : Node)
      (hc : s.calls.get? task = some c) (hname : name ∈ c.sent) (hq : d.route name = some q) :
    Transition d s (.handle task name)
      ((s.setNode q ((s.nodes q).handleCoherenceMessage (d.nodeId q) (c.request d)).2).setCall
        task
        { c with
          sent := c.sent.erase name
          answers :=
            ((s.nodes q).handleCoherenceMessage (d.nodeId q) (c.request d)).1 ::ₘ c.answers })
  | handleStray (name : Name) (r : Request Name Key) (q : Node) (hr : (name, r) ∈ s.stray)
      (hq : d.route name = some q) :
    Transition d s (.handleStray name r)
      { s.setNode q ((s.nodes q).handleCoherenceMessage (d.nodeId q) r).2 with
        stray := s.stray.erase (name, r) }
  | drop (name : Name) (r : Request Name Key) (hr : (name, r) ∈ s.stray) :
    Transition d s (.drop name r) { s with stray := s.stray.erase (name, r) }
  | found (task : Task) (c : Call Node Name Key Val) (value : Option Val) (state : MESIState)
      (nodeId : Name) (hc : s.calls.get? task = some c) (hgoal : c.goal = .read)
      (ha : .found value state nodeId ∈ c.answers) :
    Transition d s (.receive task (.found value state nodeId))
      (((s.endCall task).addStray c.sent (c.request d)).found d c.node c.key value nodeId)
  | receive (task : Task) (a : Answer Name Val) (c : Call Node Name Key Val)
      (hc : s.calls.get? task = some c) (ha : a ∈ c.answers)
      (hkind : c.goal = .read → ∀ value state nodeId, a ≠ .found value state nodeId) :
    Transition d s (.receive task a) (s.settle task { c with answers := c.answers.erase a })
  | timeOut (task : Task) (name : Name) (c : Call Node Name Key Val)
      (hc : s.calls.get? task = some c) (hname : name ∈ c.sent) :
    Transition d s (.timeOut task name)
      ((s.addStray {name} (c.request d)).settle task { c with sent := c.sent.erase name })
  | timeOutAnswer (task : Task) (a : Answer Name Val) (c : Call Node Name Key Val)
      (hc : s.calls.get? task = some c) (ha : a ∈ c.answers) :
    Transition d s (.timeOutAnswer task a) (s.settle task { c with answers := c.answers.erase a })
  | resume (task : Task) (c : Call Node Name Key Val) (hc : s.calls.get? task = some c)
      (hgoal : c.goal ≠ .read) (hdone : c.Done) :
    Transition d s (.resume task) ((s.endCall task).invalidated d c.node c.key c.goal)
  | update (n : Node) (key : Key) (value : Option Val) (version : Int) :
    Transition d s (.update n key value version)
      (s.setNode n ((s.nodes n).handleUpdate key value version))

variable {d : Deployment Node Name} {s t : Cluster Node Name Task Key Val}
  {a : Action Node Name Task Key Val}

omit [DecidableEq Node] [DecidableEq Val] [DecidableEq Name] [DecidableEq Key] in
theorem request_of_read {c : Call Node Name Key Val} (h : c.goal = .read) :
    c.request d = .fetch c.key (d.nodeId c.node) := by
  unfold Call.request
  rw [h]

omit [DecidableEq Node] [DecidableEq Val] [DecidableEq Name] [DecidableEq Key] in
theorem request_of_ne {c : Call Node Name Key Val} (h : c.goal ≠ .read) :
    c.request d = .invalidate c.key (d.nodeId c.node) := by
  unfold Call.request
  split
  · contradiction
  · rfl

theorem read_cases {n : Node} {task : Task} {key : Key} (htask : task ∉ s.calls.keys) :
    Transition d s (.read n task key) (s.read d n task key) := by
  simp only [Cluster.read]
  cases hr : ((s.nodes n).read key).1 with
  | some value => exact .readHit n task key value hr
  | none =>
    by_cases hpeers : d.peers n = []
    · simpa [hpeers] using .readAlone n task key hr hpeers
    · simpa [hpeers] using .readFetch n task key htask hr hpeers

theorem write_cases {n : Node} {task : Task} {key : Key} {value : Option Val}
    (htask : task ∉ s.calls.keys) :
    Transition d s (.write n task key value) (s.write d n task key value) := by
  have howns := CacheNode.write_fst (s.nodes n) key value
  simp only [Cluster.write, Cluster.invalidateOthers, setNode_self,
    CacheNode.write_targets]
  split
  · rename_i h
    exact .writeOwned n task key value (howns.mp h)
  · rename_i h
    have hn := fun ho => h (howns.mpr ho)
    split
    · rename_i hnone
      exact .writeAlone n task key value hn hnone
    · rename_i htargets
      exact .writeAsk n task key value htask hn htargets

theorem receive_cases {task : Task} {a : Answer Name Val} (h : s.receive d task a = some t) :
    Transition d s (.receive task a) t := by
  obtain ⟨c, hc, hstep⟩ := Option.bind_eq_some_iff.mp h
  clear h
  split at hstep
  · rename_i ha
    split at hstep
    · rename_i value state nodeId hgoal
      cases hstep
      exact .found task c value state nodeId hc hgoal ha
    · rename_i hkind
      cases hstep
      exact .receive task _ c hc ha fun hgoal value state nodeId he => hkind _ _ _ hgoal he
  · cases hstep

theorem step_cases (h : (cluster d).step s a = some t) : Transition d s a t := by
  cases a with
  | read n task key =>
    simp only [cluster, Cluster.step] at h
    split at h
    · cases h
    · rename_i htask
      cases h
      exact read_cases htask
  | write n task key value =>
    simp only [cluster, Cluster.step] at h
    split at h
    · cases h
    · rename_i htask
      cases h
      exact write_cases htask
  | delete n task key =>
    simp only [cluster, Cluster.step] at h
    split at h
    · cases h
    · rename_i htask
      cases h
      simp only [Cluster.invalidateOthers]
      split
      · rename_i htargets
        exact .deleteAlone n task key htargets
      · rename_i htargets
        exact .deleteAsk n task key htask htargets
  | handle task name =>
    obtain ⟨c, hc, h⟩ := Option.bind_eq_some_iff.mp h
    split at h
    · rename_i hname
      obtain ⟨q, hq, h⟩ := Option.map_eq_some_iff.mp h
      exact h ▸ .handle task name c q hc hname hq
    · cases h
  | handleStray name r =>
    simp only [cluster, Cluster.step, Cluster.handleStray] at h
    split at h
    · rename_i hr
      obtain ⟨q, hq, h⟩ := Option.map_eq_some_iff.mp h
      exact h ▸ .handleStray name r q hr hq
    · cases h
  | drop name r =>
    simp only [cluster, Cluster.step] at h
    split at h
    · rename_i hr
      cases h
      exact .drop name r hr
    · cases h
  | receive task a => exact receive_cases h
  | timeOut task name =>
    obtain ⟨c, hc, h⟩ := Option.bind_eq_some_iff.mp h
    split at h
    · rename_i hname
      cases h
      exact .timeOut task name c hc hname
    · cases h
  | timeOutAnswer task a =>
    obtain ⟨c, hc, h⟩ := Option.bind_eq_some_iff.mp h
    split at h
    · rename_i ha
      cases h
      exact .timeOutAnswer task a c hc ha
    · cases h
  | resume task =>
    obtain ⟨c, hc, h⟩ := Option.bind_eq_some_iff.mp h
    split at h
    · rename_i hgo
      cases h
      exact .resume task c hc hgo.1 hgo.2
    · cases h
  | update n key value version =>
    cases h
    exact .update n key value version

end DistSync.Cache
