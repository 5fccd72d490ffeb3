import DistSync.Raft.Deployment
import DistSync.Cache.Transition

/-! To whom invalidations go. Peers are addresses, but what a node records of those that fetched
a key from it are their node ids; once it has recorded one, its invalidations are addressed to
node ids. -/
namespace DistSync.Cache

/-- Nodes wired as `DistributedNode` does it: cache and Raft have the same peers. -/
def wired {Node : Type} (config : Node → Raft.NodeConfig) (route : String → Option Node)
    (policy : Node → Policy) (capacity : Node → Int) : Deployment Node String where
  nodeId n := (config n).nodeId
  peers n := (config n).peers
  route := route
  policy := policy
  capacity := capacity

variable {Node Name Task Key Val : Type} [DecidableEq Node]
  [DecidableEq Task] [DecidableEq Key]

/-- The invalidations under way are addressed to peers of their senders. -/
def AsksPeers (d : Deployment Node Name) (s : Cluster Node Name Task Key Val) : Prop :=
  ∀ task c, s.calls.get? task = some c → c.goal ≠ .read → ∀ name ∈ c.sent, name ∈ d.peers c.node

/-- Whoever else is recorded to share the key is recorded under an address of a peer. -/
def SharersArePeers (d : Deployment Node Name) (x : CacheNode Name Key Val) (n : Node)
    (key : Key) : Prop :=
  ∀ m, d.nodeId m ∈ x.sharersOf key → d.nodeId m ≠ d.nodeId n → d.nodeId m ∈ d.peers n

/-- A node that invalidates a key has recorded no other node under its id. -/
def InvalidatesUnshared (d : Deployment Node Name) (s : Cluster Node Name Task Key Val) :
    Action Node Name Task Key Val → Prop
  | .write n _ key _ => ¬ (s.nodes n).Owns key → SharersArePeers d (s.nodes n) n key
  | .delete n _ key => SharersArePeers d (s.nodes n) n key
  | _ => True

section Sharers
variable {P : Name → Prop} {x : CacheNode Name Key Val}

def CacheNode.Records (P : Name → Prop) (x : CacheNode Name Key Val) : Prop :=
  ∀ key, ∀ name ∈ x.sharersOf key, P name

theorem CacheNode.Records.congr {x' : CacheNode Name Key Val} (h : x.Records P)
    (hx : x'.sharers = x.sharers) : x'.Records P := by
  intro key name hname
  unfold CacheNode.sharersOf at hname
  rw [hx] at hname
  exact h key name hname

theorem CacheNode.Records.set {x' : CacheNode Name Key Val} (h : x.Records P) {key : Key}
    {names : Finset Name} (hx : x'.sharers = x.sharers.set key names) (hn : ∀ name ∈ names, P name) :
    x'.Records P := by
  intro j name hname
  unfold CacheNode.sharersOf at hname
  rw [hx, Dict.get?_set] at hname
  split at hname
  · exact hn name hname
  · exact h j name hname

theorem CacheNode.Records.handleEviction (h : x.Records P) (evicted : Option Key) :
    (x.handleEviction evicted).Records P := by
  cases evicted with
  | none => exact h
  | some k =>
    intro j name hname
    unfold CacheNode.sharersOf CacheNode.handleEviction at hname
    dsimp only at hname
    rw [Dict.get?_erase] at hname
    split at hname
    · exact absurd hname (Finset.notMem_empty name)
    · exact h j name hname

variable [DecidableEq Name]

theorem CacheNode.Records.addSharer (h : x.Records P) (key : Key) {name : Name} (hn : P name) :
    (x.addSharer key name).Records P := by
  refine h.set rfl fun j hj => ?_
  cases Finset.mem_insert.mp hj with
  | inl hj => exact hj ▸ hn
  | inr hj => exact h key j hj

variable (h : x.Records P) (nodeId : Name) (key : Key)
include h

omit [DecidableEq Name] in
theorem CacheNode.Records.read : (x.read key).2.Records P := by
  refine h.congr ?_
  simp only [CacheNode.read]
  split
  · split <;> rfl
  · rfl

theorem CacheNode.Records.readFetched (hn : P nodeId) (value : Val) (sourceNode : Option Name) :
    (x.readFetched nodeId key value sourceNode).2.Records P := by
  simp only [CacheNode.readFetched]
  split
  · exact h.congr rfl
  · rename_i evicted _
    have hput (store : Store Key Val) : ({ x with store := store }).Records P := h.congr rfl
    exact ((hput _).handleEviction evicted).addSharer key hn

omit [DecidableEq Name] in
theorem CacheNode.Records.writeInvalidated (hn : P nodeId) (value : Option Val) :
    (x.writeInvalidated nodeId key value).2.Records P := by
  simp only [CacheNode.writeInvalidated]
  split
  · exact h.congr rfl
  · rename_i evicted _
    have hput (store : Store Key Val) : ({ x with store := store }).Records P := h.congr rfl
    refine ((hput _).handleEviction evicted).set rfl fun name hname => ?_
    exact Finset.mem_singleton.mp hname ▸ hn

omit [DecidableEq Name] in
theorem CacheNode.Records.handleUpdate (value : Option Val) (version : Int) :
    (x.handleUpdate key value version).Records P := by
  refine h.congr ?_
  simp only [CacheNode.handleUpdate]
  split
  · rfl
  · split <;> rfl

theorem CacheNode.Records.handleCoherenceMessage (r : Request Name Key)
    (hr : ∀ key requester, r = .fetch key requester → P requester) :
    (x.handleCoherenceMessage nodeId r).2.Records P := by
  cases r with
  | fetch key requester =>
    simp only [CacheNode.handleCoherenceMessage, CacheNode.handleFetchRequest]
    split
    · exact h.congr rfl
    · split
      · exact h.congr rfl
      · refine CacheNode.Records.addSharer (h.congr ?_) key (hr key requester rfl)
        exact CacheNode.supply_sharers _ key _
  | invalidate key sender =>
    refine h.congr ?_
    simp only [CacheNode.handleCoherenceMessage, CacheNode.handleInvalidation]
    split
    · split
      · exact CacheNode.writeback_sharers ..
      · rfl
    · rfl

end Sharers

section Named
variable {d : Deployment Node Name} {s t : Cluster Node Name Task Key Val}
  {a : Action Node Name Task Key Val}

def Deployment.Named (d : Deployment Node Name) (name : Name) : Prop := ∃ m, d.nodeId m = name

/-- Fetch requests carry node ids, and so it is those that nodes record. -/
structure Cluster.Named (d : Deployment Node Name) (s : Cluster Node Name Task Key Val) :
    Prop where
  nodes : ∀ n, (s.nodes n).Records d.Named
  stray : ∀ name key requester, (name, .fetch key requester) ∈ s.stray → d.Named requester

omit [DecidableEq Task] in
theorem Cluster.Named.setNode (h : s.Named d) (n : Node) {x : CacheNode Name Key Val}
    (hx : x.Records d.Named) : (s.setNode n x).Named d where
  nodes m := by
    by_cases hm : m = n
    · subst hm
      rwa [setNode_self]
    · rw [setNode_of_ne s x hm]
      exact h.nodes m
  stray := h.stray

omit [DecidableEq Node] [DecidableEq Task] in
theorem Cluster.Named.congr (h : s.Named d) (hnodes : t.nodes = s.nodes)
    (hstray : t.stray ⊆ s.stray) : t.Named d where
  nodes n := hnodes ▸ h.nodes n
  stray name key requester hm := h.stray name key requester (hstray hm)

omit [DecidableEq Node] [DecidableEq Key] in
theorem named_request (d : Deployment Node Name) (c : Call Node Name Key Val) (key : Key)
    (requester : Name) (hr : c.request d = .fetch key requester) : d.Named requester := by
  unfold Call.request at hr
  split at hr <;> cases hr
  exact ⟨c.node, rfl⟩

omit [DecidableEq Task] [DecidableEq Node] in
theorem Cluster.Named.addStray (h : s.Named d) (names : Multiset Name)
    (c : Call Node Name Key Val) : (s.addStray names (c.request d)).Named d where
  nodes := h.nodes
  stray name key requester hm := by
    cases Multiset.mem_add.mp hm with
    | inl hm => exact h.stray name key requester hm
    | inr hm =>
      obtain ⟨_, _, he⟩ := Multiset.mem_map.mp hm
      exact named_request d c key requester (Prod.ext_iff.mp he).2

variable [DecidableEq Name]

omit [DecidableEq Task] [DecidableEq Name] in
theorem Cluster.Named.invalidated (h : s.Named d) (n : Node) (key : Key) (goal : Goal Val) :
    (s.invalidated d n key goal).Named d := by
  cases goal with
  | read => exact h
  | write value =>
    have hnode := h.setNode n ((h.nodes n).writeInvalidated (d.nodeId n) key ⟨n, rfl⟩ value)
    refine hnode.congr (invalidated_write_nodes s n d key value) ?_
    rw [invalidated_stray]
    exact Multiset.Subset.refl _
  | delete =>
    have hx : ((s.nodes n).deleteInvalidated key).Records d.Named := (h.nodes n).congr rfl
    exact (h.setNode n hx).congr rfl (Multiset.Subset.refl _)

omit [DecidableEq Task] in
theorem Cluster.Named.found (h : s.Named d) (n : Node) (key : Key) (value : Option Val)
    (source : Name) : (s.found d n key value source).Named d := by
  cases value with
  | none => exact h.congr rfl (Multiset.Subset.refl _)
  | some v =>
    have hnode := h.setNode n ((h.nodes n).readFetched (d.nodeId n) key ⟨n, rfl⟩ v (some source))
    refine hnode.congr (found_some_nodes s n d key v source) ?_
    rw [found_stray]
    exact Multiset.Subset.refl _

variable [DecidableEq Val]

omit [DecidableEq Node] in
theorem Cluster.Named.settle (h : s.Named d) (task : Task) (c : Call Node Name Key Val) :
    (s.settle task c).Named d := by
  refine h.congr (settle_nodes s task c) ?_
  rw [settle_stray]
  exact Multiset.Subset.refl _

theorem Cluster.Named.step (h : s.Named d) (ht : Transition d s a t) : t.Named d := by
  have hread (n : Node) (key : Key) : (s.setNode n ((s.nodes n).read key).2).Named d :=
    h.setNode n ((h.nodes n).read key)
  have hwrite (n : Node) (key : Key) (value : Option Val) :
      (s.setNode n ((s.nodes n).write key value).2).Named d :=
    h.setNode n ((h.nodes n).congr (CacheNode.write_sharers ..))
  cases ht with
  | readHit n task key value hr => exact (hread n key).congr rfl (Multiset.Subset.refl _)
  | readAlone n task key hr hpeers => exact (hread n key).congr rfl (Multiset.Subset.refl _)
  | readFetch n task key htask hr hpeers => exact (hread n key).congr rfl (Multiset.Subset.refl _)
  | writeOwned n task key value howns =>
    exact (hwrite n key value).congr rfl (Multiset.Subset.refl _)
  | writeAlone n task key value howns htargets => exact (hwrite n key value).invalidated n key _
  | writeAsk n task key value htask howns htargets =>
    exact (hwrite n key value).congr rfl (Multiset.Subset.refl _)
  | deleteAlone n task key htargets => exact h.invalidated n key .delete
  | deleteAsk n task key htask htargets => exact h.congr rfl (Multiset.Subset.refl _)
  | handle task name c q hc hname hq =>
    have hnode := h.setNode q ((h.nodes q).handleCoherenceMessage (d.nodeId q) (c.request d)
      (named_request d c))
    exact hnode.congr rfl (Multiset.Subset.refl _)
  | handleStray name r q hr hq =>
    have hnode := h.setNode q ((h.nodes q).handleCoherenceMessage (d.nodeId q) r
      fun key requester he => h.stray name key requester (he ▸ hr))
    exact hnode.congr rfl (Multiset.erase_subset _ _)
  | drop name r hr => exact h.congr rfl (Multiset.erase_subset _ _)
  | found task c value state nodeId hc hgoal ha =>
    have hend : (s.endCall task).Named d := h.congr rfl (Multiset.Subset.refl _)
    exact (hend.addStray c.sent c).found c.node c.key value nodeId
  | receive task a c hc ha hkind => exact h.settle task _
  | timeOut task name c hc hname => exact (h.addStray {name} c).settle task _
  | timeOutAnswer task a c hc ha => exact h.settle task _
  | resume task c hc hgoal hdone =>
    have hend : (s.endCall task).Named d := h.congr rfl (Multiset.Subset.refl _)
    exact hend.invalidated c.node c.key c.goal
  | update n key value version => exact h.setNode n ((h.nodes n).handleUpdate key value version)

theorem named_reach (hs : (cluster d).Reachable s) : s.Named d := by
  refine hs.invariant (I := fun s => s.Named d) ⟨fun n key name hm => ?_, fun name key r hm => ?_⟩
    fun s a t _ h _ ht => h.step (step_cases ht)
  · cases hm
  · exact absurd hm (Multiset.notMem_zero _)

end Named

section Calls
variable {d : Deployment Node Name} {s t : Cluster Node Name Task Key Val}
  {a : Action Node Name Task Key Val} [DecidableEq Name]

omit [DecidableEq Node] in
/-- Where all recorded sharers are node ids, an invalidation goes to peers just if those of the
others are addresses of peers. -/
theorem targets_peers_iff {x : CacheNode Name Key Val} (hx : x.Records d.Named) (n : Node)
    (key : Key) : (∀ name ∈ x.targets (d.nodeId n) key (d.peers n), name ∈ d.peers n) ↔
      SharersArePeers d x n key := by
  unfold CacheNode.targets SharersArePeers
  dsimp only
  by_cases hnone : (x.sharersOf key).erase (d.nodeId n) = ∅
  · rw [if_pos hnone]
    refine iff_of_true (fun name hm => List.mem_toFinset.mp hm) fun m hm hne => ?_
    exact absurd (Finset.mem_erase.mpr ⟨hne, hm⟩) (hnone ▸ Finset.notMem_empty _)
  · rw [if_neg hnone]
    constructor
    · exact fun ht m hm hne => ht _ (Finset.mem_erase.mpr ⟨hne, hm⟩)
    · intro hp name hm
      obtain ⟨hne, hm⟩ := Finset.mem_erase.mp hm
      obtain ⟨m, rfl⟩ := hx key name hm
      exact hp m hm hne

omit [DecidableEq Node] [DecidableEq Key] [DecidableEq Name] in
theorem AsksPeers.congr (h : AsksPeers d s) (hc : t.calls = s.calls) : AsksPeers d t := by
  unfold AsksPeers
  rw [hc]
  exact h

omit [DecidableEq Node] [DecidableEq Key] [DecidableEq Name] in
theorem AsksPeers.endCall (h : AsksPeers d s) (task : Task) : AsksPeers d (s.endCall task) := by
  intro task' c hc
  rw [endCall_calls, Dict.get?_erase] at hc
  split at hc
  · cases hc
  · exact h task' c hc

omit [DecidableEq Node] [DecidableEq Key] [DecidableEq Name] in
theorem AsksPeers.setCall_iff (h : AsksPeers d s) (task : Task) (c : Call Node Name Key Val) :
    AsksPeers d (s.setCall task c) ↔ (c.goal ≠ .read → ∀ name ∈ c.sent, name ∈ d.peers c.node) := by
  constructor
  · exact fun ht => ht task c (by rw [setCall_calls, Dict.get?_set_self])
  · intro hnew task' c' hc
    rw [setCall_calls, Dict.get?_set] at hc
    split at hc
    · cases hc
      exact hnew
    · exact h task' c' hc

variable [DecidableEq Val]

omit [DecidableEq Node] [DecidableEq Key] in
theorem AsksPeers.settle (h : AsksPeers d s) {task : Task} {c : Call Node Name Key Val}
    (hc : s.calls.get? task = some c) {sent : Multiset Name} (hsub : sent ⊆ c.sent)
    (answers : Multiset (Answer Name Val)) :
    AsksPeers d (s.settle task { c with sent := sent, answers := answers }) := by
  unfold Cluster.settle
  split
  · exact (h.endCall task).congr rfl
  · exact (h.setCall_iff task _).mpr fun hgoal name hm => h task c hc hgoal name (hsub hm)

/-- A step leaves all invalidations addressed to peers just if it starts none that is not. -/
theorem AsksPeers.step_iff (h : AsksPeers d s) (hn : s.Named d) (ht : Transition d s a t) :
    AsksPeers d t ↔ InvalidatesUnshared d s a := by
  have hnode (n : Node) (x : CacheNode Name Key Val) : AsksPeers d (s.setNode n x) := h.congr rfl
  have htargets_iff (n : Node) (key : Key) := targets_peers_iff (hn.nodes n) n key
  have hnone {n : Node} {key : Key}
      (htargets : (s.nodes n).targets (d.nodeId n) key (d.peers n) = ∅) :
      SharersArePeers d (s.nodes n) n key :=
    (htargets_iff n key).mp fun name hm => absurd hm (htargets ▸ Finset.notMem_empty name)
  cases ht with
  | readHit n task key value hr => exact iff_of_true (h.congr rfl) trivial
  | readAlone n task key hr hpeers => exact iff_of_true (h.congr rfl) trivial
  | readFetch n task key htask hr hpeers =>
    exact iff_of_true (((hnode n _).setCall_iff task _).mpr fun hgoal => absurd rfl hgoal) trivial
  | writeOwned n task key value howns =>
    exact iff_of_true (h.congr rfl) fun hno => absurd howns hno
  | writeAlone n task key value howns htargets =>
    have hwrite := hnode n ((s.nodes n).write key value).2
    exact iff_of_true (hwrite.congr (invalidated_calls _ n d key _)) fun _ => hnone htargets
  | writeAsk n task key value htask howns htargets =>
    rw [(hnode n _).setCall_iff]
    constructor
    · exact fun ht _ => (htargets_iff n key).mp (ht (by simp))
    · exact fun hg _ => (htargets_iff n key).mpr (hg howns)
  | deleteAlone n task key htargets =>
    exact iff_of_true (h.congr (invalidated_calls s n d key .delete)) (hnone htargets)
  | deleteAsk n task key htask htargets =>
    rw [h.setCall_iff]
    constructor
    · exact fun ht => (htargets_iff n key).mp (ht (by simp))
    · exact fun hg _ => (htargets_iff n key).mpr hg
  | handle task name c q hc hname hq =>
    refine iff_of_true (((hnode q _).setCall_iff task _).mpr fun hgoal j hj => ?_) trivial
    exact h task c hc hgoal j (Multiset.erase_subset _ _ hj)
  | handleStray name r q hr hq => exact iff_of_true (h.congr rfl) trivial
  | drop name r hr => exact iff_of_true (h.congr rfl) trivial
  | found task c value state nodeId hc hgoal ha =>
    exact iff_of_true ((h.endCall task).congr (found_calls _ _ d _ _ _)) trivial
  | receive task a c hc ha hkind =>
    exact iff_of_true (h.settle hc (Multiset.Subset.refl _) _) trivial
  | timeOut task name c hc hname =>
    have hstray : AsksPeers d (s.addStray {name} (c.request d)) := h.congr rfl
    exact iff_of_true (hstray.settle hc (Multiset.erase_subset _ _) c.answers) trivial
  | timeOutAnswer task a c hc ha =>
    exact iff_of_true (h.settle hc (Multiset.Subset.refl _) _) trivial
  | resume task c hc hgoal hdone =>
    exact iff_of_true ((h.endCall task).congr (invalidated_calls _ _ d _ _)) trivial
  | update n key value version => exact iff_of_true (hnode n _) trivial

end Calls

section Wired
variable (config : Node → Raft.NodeConfig) (route : String → Option Node) (policy : Node → Policy)
  (capacity : Node → Int) [DecidableEq Val]

/-- In a run of wired nodes all invalidations go to peers exactly if no node invalidates a key
while it has another recorded that fetched it, unless that one's id is an address of a peer. -/
theorem asksPeers_along_iff (as : List (Action Node String Task Key Val)) :
    (cluster (wired config route policy capacity)).Along
        (fun _ _ t => AsksPeers (wired config route policy capacity) t)
        (cluster (wired config route policy capacity)).init as ↔
      (cluster (wired config route policy capacity)).Along
        (fun s a _ => InvalidatesUnshared (wired config route policy capacity) s a)
        (cluster (wired config route policy capacity)).init as := by
  refine System.along_invariant_iff (I := AsksPeers (wired config route policy capacity))
    (fun s a t hs h ht => ?_) .init (fun task c hc => by cases hc) as
  exact h.step_iff (named_reach hs) (step_cases ht)

end Wired

/-- The nodes of `docker-compose.yml`. -/
def composed : Deployment (Fin 3) String :=
  wired Raft.compose.config Raft.compose.wiring.route (fun _ => .lru) fun _ => 10000

/-- The first node writes a key, the second fetches it, and the first writes it again. -/
def sharedAndWritten : List (Action (Fin 3) String Nat Nat Nat) :=
  [.write 0 0 0 (some 1), .timeOut 0 "172.20.0.11:8001", .timeOut 0 "172.20.0.12:8002",
   .timeOut 0 "172.20.0.13:8003", .resume 0, .read 1 1 0, .handle 1 "172.20.0.11:8001",
   .write 0 2 0 (some 2)]

theorem not_asksPeers_sharedAndWritten : ∃ s, (cluster composed).run (cluster composed).init
    sharedAndWritten = some s ∧ ¬ AsksPeers composed s := by
  have hrun : ((cluster composed).run (cluster composed).init sharedAndWritten).any
      (fun s : Cluster (Fin 3) String Nat Nat Nat => ∃ c ∈ s.calls.get? 2, c.goal ≠ .read ∧
        "node-2" ∈ c.sent ∧ "node-2" ∉ composed.peers c.node) = true := by
    decide +kernel
  obtain ⟨s, hs, hx⟩ := (Option.any_eq_true ..).mp hrun
  obtain ⟨c, hc, hgoal, hsent, hnot⟩ := of_decide_eq_true hx
  exact ⟨s, hs, fun h => hnot (h 2 c hc hgoal "node-2" hsent)⟩

end DistSync.Cache
