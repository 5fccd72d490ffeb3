import DistSync.Cache.Sequential

/-! Every operation is answered, and the reads with what was written last. -/
namespace DistSync.Cache
variable {Node Name Task Key Val : Type}

/-- The operation that an action begins: on which node, on which key and what. -/
def Action.operation : Action Node Name Task Key Val → Option (Node × Key × Goal Val)
  | .read n _ key => some (n, key, .read)
  | .write n _ key value => some (n, key, .write value)
  | .delete n _ key => some (n, key, .delete)
  | _ => none

def Call.operation (c : Call Node Name Key Val) : Node × Key × Goal Val := (c.node, c.key, c.goal)

def Reply.operation : Reply Node Key Val → Node × Key × Goal Val
  | .value n key _ => (n, key, .read)
  | .written n key v => (n, key, .write v)
  | .deleted n key => (n, key, .delete)

theorem operations_append (as : List (Action Node Name Task Key Val))
    (a : Action Node Name Task Key Val) :
    (as ++ [a]).filterMap Action.operation =
      as.filterMap Action.operation ++ a.operation.toList := by
  rw [List.filterMap_append]
  cases h : a.operation <;> simp [h]

section Ends
variable [DecidableEq Node] [DecidableEq Name] [DecidableEq Key]

theorem readFetched_of_not_raises {x : CacheNode Name Key Val} {key : Key}
    (h : x.store.raises key = false) (nodeId : Name) (v : Val) (source : Option Name) :
    ∃ o, (x.readFetched nodeId key v source).1 = .ok o := by
  simp only [CacheNode.readFetched]
  split
  · rename_i e hr
    exact absurd hr (Store.put_ne_raised _ h e)
  · exact ⟨_, rfl⟩

omit [DecidableEq Name] in
theorem writeInvalidated_of_not_raises {x : CacheNode Name Key Val} {key : Key}
    (h : x.store.raises key = false) (nodeId : Name) (value : Option Val) :
    (x.writeInvalidated nodeId key value).1 = .ok () := by
  simp only [CacheNode.writeInvalidated]
  split
  · rename_i e hr
    exact absurd hr (Store.put_ne_raised _ h e)
  · rfl

theorem found_history (d : Deployment Node Name) (u : Cluster Node Name Task Key Val) {n : Node}
    {key : Key} (value : Option Val) (source : Name) (h : (u.nodes n).store.raises key = false) :
    ∃ r : Reply Node Key Val, r.operation = (n, key, .read) ∧
      (u.found d n key value source).history = r :: u.history := by
  unfold Cluster.found
  cases value with
  | none => exact ⟨_, rfl, rfl⟩
  | some v =>
    obtain ⟨o, ho⟩ := readFetched_of_not_raises h (d.nodeId n) v (some source)
    dsimp only
    rw [ho]
    exact ⟨_, rfl, rfl⟩

omit [DecidableEq Name] in
theorem invalidated_history (d : Deployment Node Name) (u : Cluster Node Name Task Key Val)
    {n : Node} {key : Key} {goal : Goal Val} (hgoal : goal ≠ .read)
    (h : goal.isWrite → (u.nodes n).store.raises key = false) :
    ∃ r : Reply Node Key Val, r.operation = (n, key, goal) ∧
      (u.invalidated d n key goal).history = r :: u.history := by
  cases goal with
  | read => exact absurd rfl hgoal
  | write value =>
    simp only [Cluster.invalidated, writeInvalidated_of_not_raises (h rfl) _ value]
    exact ⟨_, rfl, rfl⟩
  | delete => exact ⟨_, rfl, rfl⟩

end Ends

variable [DecidableEq Task]

/-- The operations that the run `as` has begun are those that are answered, in turn, and then the
one that is going on. -/
structure Answered (as : List (Action Node Name Task Key Val))
    (s : Cluster Node Name Task Key Val) : Prop where
  quiet : (∀ task, s.calls.get? task = none) →
    as.filterMap Action.operation = (s.history.map Reply.operation).reverse
  busy : ∀ task c, s.calls.get? task = some c →
    as.filterMap Action.operation = (s.history.map Reply.operation).reverse ++ [c.operation]

namespace Answered
variable {as : List (Action Node Name Task Key Val)} {a : Action Node Name Task Key Val}
  {s t : Cluster Node Name Task Key Val}

theorem init {s : Cluster Node Name Task Key Val} (hhist : s.history = [])
    (hcalls : ∀ task, s.calls.get? task = none) : Answered [] s where
  quiet _ := by rw [hhist]; rfl
  busy task c hc := by cases (hcalls task).symm.trans hc

theorem same (h : Answered as s) (ha : a.operation = none)
    (hcalls : ∀ task, (t.calls.get? task).map Call.operation =
      (s.calls.get? task).map Call.operation)
    (hhist : t.history = s.history) : Answered (as ++ [a]) t where
  quiet hq := by
    rw [operations_append, ha, hhist, Option.toList_none, List.append_nil]
    refine h.quiet fun task => ?_
    have hsame := hcalls task
    rw [hq, Option.map_none] at hsame
    exact Option.map_eq_none_iff.mp hsame.symm
  busy task c hc := by
    have hsame := hcalls task
    rw [hc, Option.map_some] at hsame
    obtain ⟨c', hc', he⟩ := Option.map_eq_some_iff.mp hsame.symm
    rw [operations_append, ha, hhist, Option.toList_none, List.append_nil, h.busy task c' hc', he]

theorem begin (h : Answered as s) (hquiet : ∀ task, s.calls.get? task = none) {task : Task}
    {c : Call Node Name Key Val} (ha : a.operation = some c.operation)
    (hcalls : t.calls = s.calls.set task c) (hhist : t.history = s.history) :
    Answered (as ++ [a]) t where
  quiet hq := by
    have hc := hq task
    rw [hcalls, Dict.get?_set_self] at hc
    cases hc
  busy task' c' hc := by
    rw [hcalls, Dict.get?_set] at hc
    split at hc
    · cases hc
      rw [operations_append, ha, hhist, h.quiet hquiet]
      rfl
    · cases (hquiet task').symm.trans hc

theorem reply (h : Answered as s) (hquiet : ∀ task, s.calls.get? task = none)
    {r : Reply Node Key Val} (ha : a.operation = some r.operation) (hcalls : t.calls = s.calls)
    (hhist : t.history = r :: s.history) : Answered (as ++ [a]) t where
  quiet _ := by
    rw [operations_append, ha, hhist, h.quiet hquiet, List.map_cons, List.reverse_cons]
    rfl
  busy task c hc := by
    rw [hcalls] at hc
    cases (hquiet task).symm.trans hc

theorem finish (h : Answered as s) {task : Task} {c : Call Node Name Key Val}
    (hc : s.calls.get? task = some c) (ha : a.operation = none) {r : Reply Node Key Val}
    (hr : r.operation = c.operation) (hcalls : ∀ task, t.calls.get? task = none)
    (hhist : t.history = r :: s.history) : Answered (as ++ [a]) t where
  quiet _ := by
    rw [operations_append, ha, hhist, h.busy task c hc, List.map_cons, List.reverse_cons, hr,
      Option.toList_none, List.append_nil]
  busy task' c' hc' := by cases (hcalls task').symm.trans hc'

theorem setCall (h : Answered as s) {task : Task} {c c' : Call Node Name Key Val}
    (hc : s.calls.get? task = some c) (hcalls : t.calls = s.calls.set task c')
    (hsame : c'.operation = c.operation) (ha : a.operation = none)
    (hhist : t.history = s.history) : Answered (as ++ [a]) t := by
  refine h.same ha (fun task' => ?_) hhist
  rw [hcalls, Dict.get?_set]
  split
  · rename_i htask
    rw [← htask, hc, Option.map_some, Option.map_some, hsame]
  · rfl

end Answered

variable [DecidableEq Node] [DecidableEq Name] [DecidableEq Key] [DecidableEq Val]
  {d : Deployment Node Name} {as : List (Action Node Name Task Key Val)}
  {a : Action Node Name Task Key Val} {s t : Cluster Node Name Task Key Val}

theorem Answered.step (h : Answered as s) (hserial : Serial d s) (hi : InTurn d s a)
    (hk : Covers d s a) (ht : Transition d s a t) : Answered (as ++ [a]) t := by
  cases ht with
  | readHit n task key value hr => exact h.reply (Cluster.Quiet.get?_eq_none hi) rfl rfl rfl
  | readAlone n task key hr hpeers => exact h.reply (Cluster.Quiet.get?_eq_none hi) rfl rfl rfl
  | readFetch n task key htask hr hpeers =>
    exact h.begin (Cluster.Quiet.get?_eq_none hi) rfl rfl rfl
  | writeOwned n task key value howns => exact h.reply hi.1.get?_eq_none rfl rfl rfl
  | writeAlone n task key value howns htargets =>
    have hraise : ((s.setNode n ((s.nodes n).write key value).2).nodes n).store.raises key =
        false := by
      rw [setNode_self]
      exact ((hk howns).2.2 htargets).2
    obtain ⟨r, hr, hhist⟩ := invalidated_history d (s.setNode n ((s.nodes n).write key value).2)
      (nofun : Goal.write value ≠ .read) fun _ => hraise
    exact h.reply hi.1.get?_eq_none (congrArg some hr.symm) (invalidated_calls ..) hhist
  | writeAsk n task key value htask howns htargets => exact h.begin hi.1.get?_eq_none rfl rfl rfl
  | deleteAlone n task key htargets => exact h.reply (Cluster.Quiet.get?_eq_none hi) rfl rfl rfl
  | deleteAsk n task key htask htargets => exact h.begin (Cluster.Quiet.get?_eq_none hi) rfl rfl rfl
  | handle task name c q hc hname hq => exact h.setCall hc rfl rfl rfl rfl
  | handleStray name r q hr hq => exact h.same rfl (fun _ => rfl) rfl
  | drop name r hr => exact h.same rfl (fun _ => rfl) rfl
  | found task c value state nodeId hc hgoal ha =>
    obtain ⟨r, hr, hhist⟩ := found_history d
      ((s.endCall task).addStray c.sent (c.request d)) value nodeId (hk c hc hgoal)
    refine h.finish hc rfl (hr.trans (by rw [Call.operation, hgoal])) (fun task' => ?_) hhist
    rw [found_calls]
    exact hserial.get?_endCall hc task'
  | receive task a c hc ha hkind =>
    unfold Cluster.settle
    split
    · rename_i hdone
      refine h.finish hc rfl ?_ (hserial.get?_endCall hc) rfl
      exact congrArg (fun goal => (c.node, c.key, goal)) hdone.1.symm
    · exact h.setCall hc rfl rfl rfl rfl
  | timeOut task name c hc hname => exact hi.elim
  | timeOutAnswer task a c hc ha => exact hi.elim
  | resume task c hc hgoal hdone =>
    obtain ⟨r, hr, hhist⟩ := invalidated_history d (s.endCall task) hgoal
      fun hwrite => (hk c hc hwrite).2
    refine h.finish hc rfl hr (fun task' => ?_) hhist
    rw [invalidated_calls]
    exact hserial.get?_endCall hc task'
  | update n key value version => exact hi.elim

/-- Operations one after the other, of which each write and each DELETE reaches all who have
its key, and none raises a `KeyError`: all are answered, and the reads with what one shared map
would return. -/
theorem coherent_of_covers (d : Deployment Node Name) (hmesh : d.FullMesh)
    (as : List (Action Node Name Task Key Val)) (s : Cluster Node Name Task Key Val)
    (hr : (cluster d).run (cluster d).init as = some s)
    (hg : (cluster d).Along (fun s a _ => InTurn d s a ∧ Covers d s a) (cluster d).init as) :
    Coherent s.history ∧ Answered as s := by
  constructor
  · exact (serial_of_covers hmesh (System.Reach.run .init hg hr)).1.coherent
  · refine System.run_guarded_invariant (I := Answered) (.init rfl fun _ => rfl) ?_ hg hr
    intro as a s t hs _ h hguard ht
    exact h.step (serial_of_covers hmesh hs).1 hguard.1 hguard.2 (step_cases ht)

section Runs

theorem fullMesh_mesh (N : Nat) (policy : Policy) (capacity : Int) :
    (Deployment.mesh N policy capacity).FullMesh :=
  fun n m hm => (Raft.mesh_complete N).reached n m hm

/-- Node 0 writes, node 1 reads and writes, node 0 reads, node 2 deletes, node 1 reads. -/
def inTurn : List (Action (Fin 3) (Fin 3) Nat String Nat) :=
  [.write 0 0 "k" (some 1), .handle 0 1, .handle 0 2, .receive 0 .ok, .receive 0 .ok, .resume 0,
    .read 1 0 "k", .handle 0 0, .handle 0 2, .receive 0 (.found (some 1) .shared 0),
    .write 1 0 "k" (some 2), .handle 0 0, .handle 0 2, .receive 0 .ok, .receive 0 .ok, .resume 0,
    .read 0 0 "k", .handle 0 1, .receive 0 (.found (some 2) .shared 1), .drop 2 (.fetch "k" 0),
    .delete 2 0 "k", .handle 0 0, .handle 0 1, .receive 0 .ok, .receive 0 .ok, .resume 0,
    .read 1 0 "k", .handle 0 0, .handle 0 2, .receive 0 .notFound, .receive 0 .notFound]

theorem coherent_of_covers_inTurn : ∃ s, (trio .lfu).run (trio .lfu).init inTurn = some s ∧
    s.history.length = 6 ∧ lastWritten "k" s.history = none ∧ Coherent s.history ∧
      Answered inTurn s := by
  have hrun : ((trio .lfu).run (trio .lfu).init inTurn).any
      (fun s => s.history.length = 6 ∧ lastWritten "k" s.history = none) = true := by
    decide +kernel
  have hguard : (trio .lfu).Along
      (fun s a _ => InTurn (.mesh 3 .lfu 10) s a ∧ Covers (.mesh 3 .lfu 10) s a)
      (trio .lfu).init inTurn := by
    decide +kernel
  obtain ⟨s, hs, hh⟩ := (Option.any_eq_true ..).mp hrun
  obtain ⟨hlen, hlast⟩ := of_decide_eq_true hh
  exact ⟨s, hs, hlen, hlast,
    coherent_of_covers (.mesh 3 .lfu 10) (fullMesh_mesh 3 .lfu 10) inTurn s hs hguard⟩

/-- Node 0 writes, node 1 reads, node 0 writes again and reads. -/
def lineKept : List (Action (Fin 3) (Fin 3) Nat String Nat) :=
  [.write 0 0 "k" (some 1), .handle 0 1, .handle 0 2, .receive 0 .ok, .receive 0 .ok, .resume 0,
    .read 1 0 "k", .handle 0 0, .handle 0 2, .receive 0 (.found (some 1) .shared 0),
    .write 0 0 "k" (some 2), .handle 0 1, .receive 0 .ok, .resume 0, .read 0 0 "k"]

/-- Node 0 writes, nodes 1 and 2 read, node 1 writes, which knows of node 2 only, and node 0
reads. -/
def sharerUnknown : List (Action (Fin 3) (Fin 3) Nat String Nat) :=
  [.write 0 0 "k" (some 1), .handle 0 1, .handle 0 2, .receive 0 .ok, .receive 0 .ok, .resume 0,
    .read 1 0 "k", .handle 0 0, .handle 0 2, .receive 0 (.found (some 1) .shared 0),
    .read 2 0 "k", .handle 0 0, .handle 0 1, .receive 0 (.found (some 1) .shared 0),
    .write 1 0 "k" (some 2), .handle 0 2, .receive 0 .ok, .resume 0, .read 0 0 "k"]

/-- Node 0, with room for one line, writes and deletes a key. It then reads two keys, which the
other nodes have written: the LFU policy looks for a victim where the deleted key was. -/
def readRaises : List (Action (Fin 3) (Fin 3) Nat String Nat) :=
  [.write 0 0 "k" (some 1), .handle 0 1, .handle 0 2, .receive 0 .ok, .receive 0 .ok, .resume 0,
    .delete 0 0 "k", .handle 0 1, .handle 0 2, .receive 0 .ok, .receive 0 .ok, .resume 0,
    .write 1 0 "i" (some 2), .handle 0 0, .handle 0 2, .receive 0 .ok, .receive 0 .ok, .resume 0,
    .read 0 0 "i", .handle 0 1, .handle 0 2, .receive 0 (.found (some 2) .shared 1),
    .write 2 0 "j" (some 3), .handle 0 0, .handle 0 1, .receive 0 .ok, .receive 0 .ok, .resume 0,
    .read 0 0 "j", .handle 0 1, .handle 0 2, .receive 0 (.found (some 3) .shared 2)]

theorem not_coherent_sharerUnknown :
    (∃ s, (trio .lru).Reach (InTurn (.mesh 3 .lru 10)) s ∧ ¬ Coherent s.history) ∧
      (∃ s, (trio .lfu).Reach (InTurn (.mesh 3 .lfu 10)) s ∧ ¬ Coherent s.history) ∧
      ∃ s, (cluster (.mesh 3 .lfu 1)).run (cluster (.mesh 3 .lfu 1)).init readRaises = some s ∧
        (cluster (.mesh 3 .lfu 1)).Along (fun s a _ => InTurn (.mesh 3 .lfu 1) s a)
          (cluster (.mesh 3 .lfu 1)).init readRaises ∧
        (∀ task, s.calls.get? task = none) ∧ ¬ Answered readRaises s := by
  have hlru : ((trio .lru).runIf (InTurn (.mesh 3 .lru 10)) (trio .lru).init lineKept).any
      (fun s => ¬ Coherent s.history) = true := by
    decide +kernel
  have hlfu : ((trio .lfu).runIf (InTurn (.mesh 3 .lfu 10)) (trio .lfu).init sharerUnknown).any
      (fun s => ¬ Coherent s.history) = true := by
    decide +kernel
  have hraise : ((cluster (.mesh 3 .lfu 1)).run (cluster (.mesh 3 .lfu 1)).init readRaises).any
      (fun s => s.calls.keys = [] ∧ s.history.length = 5) = true := by
    decide +kernel
  have hinTurn : (cluster (.mesh 3 .lfu 1)).Along (fun s a _ => InTurn (.mesh 3 .lfu 1) s a)
      (cluster (.mesh 3 .lfu 1)).init readRaises := by
    decide +kernel
  obtain ⟨s, hs, hh⟩ := (Option.any_eq_true ..).mp hlru
  obtain ⟨t, ht, hh'⟩ := (Option.any_eq_true ..).mp hlfu
  obtain ⟨u, hu, hquiet⟩ := (Option.any_eq_true ..).mp hraise
  obtain ⟨hkeys, hlen⟩ := of_decide_eq_true hquiet
  have hcalls (task : Nat) : u.calls.get? task = none :=
    Dict.get?_eq_none.mpr (by rw [hkeys]; exact List.not_mem_nil)
  refine ⟨⟨s, System.Reach.init.runIf hs, of_decide_eq_true hh⟩,
    ⟨t, System.Reach.init.runIf ht, of_decide_eq_true hh'⟩, u, hu, hinTurn, hcalls, fun h => ?_⟩
  -- six operations were begun, and five are answered
  have hall := congrArg List.length (h.quiet hcalls)
  rw [List.length_reverse, List.length_map, hlen] at hall
  cases hall

end Runs

end DistSync.Cache
