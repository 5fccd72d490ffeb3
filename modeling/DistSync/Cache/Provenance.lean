import DistSync.Cache.Transition

/-! What all lines have in common, on all nodes and in every state. Lines are made and changed in
few ways; what those preserve holds of every line, and of the lines that the answers under way
come from. So no value comes from nowhere, and no line is ever EXCLUSIVE. -/
namespace DistSync.Cache
variable {Node Name Task Key Val : Type} [DecidableEq Node]
  [DecidableEq Task] [DecidableEq Key]

/-- `V` tells which values a key may be given; `P` is kept by whatever happens to a line. -/
structure Lasting (V : Key → Option Val → Prop) (P : Key → CacheLine Val → Prop) : Prop where
  touch {key : Key} {l : CacheLine Val} : P key l → P key l.touch
  demote {key : Key} {l : CacheLine Val} : P key l → P key l.demote
  owned {key : Key} {l : CacheLine Val} {v : Option Val} : P key l → V key v → ∀ version,
    P key { l with value := v, state := .modified, version := version, dirty := true }
  updated {key : Key} {l : CacheLine Val} {v : Option Val} : P key l → V key v → ∀ version,
    P key { l with value := v, version := version, state := .shared }
  fetched {key : Key} {v : Val} : V key (some v) → P key { value := some v, state := .shared }
  written {key : Key} {v : Option Val} :
    V key v → P key { value := v, state := .modified, dirty := true }
  value {key : Key} {l : CacheLine Val} : P key l → V key l.value

variable {V : Key → Option Val → Prop} {P : Key → CacheLine Val → Prop}

def CacheNode.Has (P : Key → CacheLine Val → Prop) (x : CacheNode Name Key Val) : Prop :=
  ∀ key, ∀ line ∈ x.store.line? key, P key line

def Answer.From (P : Key → CacheLine Val → Prop) (key : Key) (a : Answer Name Val) : Prop :=
  ∀ value state nodeId, a = .found value state nodeId →
    ∃ l, P key l ∧ l.value = value ∧ l.demote.state = state

section Node
variable {x x' : CacheNode Name Key Val} {nodeId : Name} {key : Key} {value : Option Val}
  (hP : Lasting V P)

theorem CacheNode.Has.of_map (h : x.Has P) {f : CacheLine Val → CacheLine Val}
    (hline : ∀ j, x'.store.line? j =
      if j = key then (x.store.line? key).map f else x.store.line? j)
    (hf : ∀ l, P key l → P key (f l)) : x'.Has P := by
  intro j line hl
  rw [hline] at hl
  split at hl
  · rename_i hj
    obtain ⟨l, hold, rfl⟩ := Option.map_eq_some_iff.mp hl
    exact hj ▸ hf l (h key l hold)
  · exact h j line hl

theorem CacheNode.Has.of_erase (h : x.Has P)
    (hline : ∀ j, x'.store.line? j = if j = key then none else x.store.line? j) : x'.Has P := by
  intro j line hl
  rw [hline] at hl
  split at hl
  · cases hl
  · exact h j line hl

theorem CacheNode.Has.of_put (h : x.Has P) {l : CacheLine Val} (hl : P key l)
    (hstore : x'.store = (x.store.put key l).2) : x'.Has P := by
  intro j line hline
  rw [hstore] at hline
  cases Store.line?_put _ hline with
  | inl hold => exact h j line hold
  | inr hnew => rwa [hnew.1, hnew.2]

include hP

theorem CacheNode.Has.read (h : x.Has P) (key : Key) : (x.read key).2.Has P :=
  h.of_map (fun j => line?_read x key j) fun _ => hP.touch

theorem CacheNode.Has.write (h : x.Has P) (hv : V key value) : (x.write key value).2.Has P := by
  refine h.of_map (fun j => line?_write x key j value) fun l hl => ?_
  split
  · exact hP.owned (hP.touch hl) hv _
  · exact hP.touch hl

theorem CacheNode.Has.writeInvalidated (h : x.Has P) (nodeId : Name) (hv : V key value) :
    (x.writeInvalidated nodeId key value).2.Has P :=
  h.of_put (hP.written hv) (writeInvalidated_store ..)

variable [DecidableEq Name]

theorem CacheNode.Has.readFetched (h : x.Has P) (nodeId source : Name) {v : Val}
    (hv : V key (some v)) : (x.readFetched nodeId key v (some source)).2.Has P :=
  h.of_put (hP.fetched hv) (readFetched_store ..)

omit [DecidableEq Name] in
theorem CacheNode.Has.handleUpdate (h : x.Has P) (hv : V key value) (version : Int) :
    (x.handleUpdate key value version).Has P := by
  refine h.of_map (fun j => line?_handleUpdate x key j value version) fun l hl => ?_
  split
  · exact hP.touch hl
  · exact hP.updated (hP.touch hl) hv _

theorem CacheNode.Has.handleCoherenceMessage (h : x.Has P) (nodeId : Name)
    (r : Request Name Key) : (x.handleCoherenceMessage nodeId r).2.Has P := by
  cases r with
  | invalidate key sender => exact h.of_erase fun j => line?_handleInvalidation x key j
  | fetch key requester =>
    exact h.of_map (fun j => line?_handleFetchRequest x nodeId key j requester)
      fun _ hl => hP.demote (hP.touch hl)

omit hP in
theorem readFetched_ok {source : Option Name} {v : Val} {o : Option Val}
    (h : (x.readFetched nodeId key v source).1 = .ok o) : o = some v := by
  simp only [CacheNode.readFetched] at h
  split at h
  · cases h
  · exact (Except.ok.inj h).symm

omit [DecidableEq Node] in
theorem CacheNode.Has.answer (h : x.Has P) (nodeId : Name) (c : Call Node Name Key Val)
    (d : Deployment Node Name) :
    (x.handleCoherenceMessage nodeId (c.request d)).1.From P c.key := by
  intro value state source he
  by_cases hgoal : c.goal = .read
  · rw [request_of_read hgoal] at he
    simp only [CacheNode.handleCoherenceMessage, CacheNode.handleFetchRequest,
      Store.get_fst] at he
    cases hl : x.store.line? c.key with
    | none =>
      rw [hl] at he
      cases he
    | some line =>
      rw [hl] at he
      dsimp only [Option.map_some] at he
      split at he
      · cases he
      · cases he
        exact ⟨line.touch, hP.touch (h c.key line hl), by simp, by simp⟩
  · rw [request_of_ne hgoal] at he
    cases he

end Node

def Gives (V : Key → Option Val → Prop) : Action Node Name Task Key Val → Prop
  | .write _ _ key value => V key value
  | .update _ key value _ => V key value
  | _ => True

/-- What is stored, under way and answered is of the lines that have `P`. -/
structure Cluster.Has (V : Key → Option Val → Prop) (P : Key → CacheLine Val → Prop)
    (s : Cluster Node Name Task Key Val) : Prop where
  nodes : ∀ n, (s.nodes n).Has P
  answers : ∀ task c, s.calls.get? task = some c → ∀ a ∈ c.answers, a.From P c.key
  writes : ∀ task c, s.calls.get? task = some c → ∀ v, c.goal = .write v → V c.key v
  replies : ∀ n key v, .value n key (some v) ∈ s.history → V key (some v)

section Cluster
variable {d : Deployment Node Name} {s t : Cluster Node Name Task Key Val}

theorem Cluster.Has.setNode (h : s.Has V P) (n : Node) {x : CacheNode Name Key Val}
    (hx : x.Has P) : (s.setNode n x).Has V P where
  nodes m := by
    by_cases hm : m = n
    · subst hm
      rwa [setNode_self]
    · rw [setNode_of_ne _ _ hm]
      exact h.nodes m
  answers := h.answers
  writes := h.writes
  replies := h.replies

omit [DecidableEq Node] in
theorem Cluster.Has.reply (h : s.Has V P) {r : Reply Node Key Val}
    (hr : ∀ n key v, r = .value n key (some v) → V key (some v)) : (s.reply r).Has V P where
  nodes := h.nodes
  answers := h.answers
  writes := h.writes
  replies n key v hv := by
    cases List.mem_cons.mp hv with
    | inl hnew => exact hr n key v hnew.symm
    | inr hold => exact h.replies n key v hold

omit [DecidableEq Node] in
theorem Cluster.Has.setCall (h : s.Has V P) (task : Task) {c : Call Node Name Key Val}
    (hc : ∀ a ∈ c.answers, a.From P c.key) (hw : ∀ v, c.goal = .write v → V c.key v) :
    (s.setCall task c).Has V P where
  nodes := h.nodes
  answers task' c' hc' := by
    rw [setCall_calls, Dict.get?_set] at hc'
    split at hc'
    · cases hc'
      exact hc
    · exact h.answers task' c' hc'
  writes task' c' hc' := by
    rw [setCall_calls, Dict.get?_set] at hc'
    split at hc'
    · cases hc'
      exact hw
    · exact h.writes task' c' hc'
  replies := h.replies

omit [DecidableEq Node] in
theorem Cluster.Has.endCall (h : s.Has V P) (task : Task) : (s.endCall task).Has V P where
  nodes := h.nodes
  answers task' c hc := by
    rw [endCall_calls, Dict.get?_erase] at hc
    split at hc
    · cases hc
    · exact h.answers task' c hc
  writes task' c hc := by
    rw [endCall_calls, Dict.get?_erase] at hc
    split at hc
    · cases hc
    · exact h.writes task' c hc
  replies := h.replies

omit [DecidableEq Node] in
theorem Cluster.Has.congr (h : s.Has V P) (hnodes : t.nodes = s.nodes) (hcalls : t.calls = s.calls)
    (hreplies : t.history = s.history) : t.Has V P where
  nodes := hnodes ▸ h.nodes
  answers := hcalls ▸ h.answers
  writes := hcalls ▸ h.writes
  replies := hreplies ▸ h.replies

variable [DecidableEq Val] [DecidableEq Name]

omit [DecidableEq Node] in
theorem Cluster.Has.settle (h : s.Has V P) (task : Task) {c : Call Node Name Key Val}
    (hc : ∀ a ∈ c.answers, a.From P c.key) (hw : ∀ v, c.goal = .write v → V c.key v) :
    (s.settle task c).Has V P := by
  unfold Cluster.settle
  split
  · exact (h.endCall task).reply (by simp)
  · exact h.setCall task hc hw

section Step
variable (hP : Lasting V P) (h : s.Has V P)
include hP h

omit [DecidableEq Val] [DecidableEq Name] in
theorem Cluster.Has.invalidated (n : Node) (key : Key) {goal : Goal Val}
    (hw : ∀ v, goal = .write v → V key v) : (s.invalidated d n key goal).Has V P := by
  cases goal with
  | read => exact h
  | write value =>
    have hnode := h.setNode n ((h.nodes n).writeInvalidated hP (d.nodeId n) (hw value rfl))
    simp only [Cluster.invalidated]
    split
    · exact hnode.reply (by simp)
    · exact hnode
  | delete =>
    have hx : ((s.nodes n).deleteInvalidated key).Has P :=
      (h.nodes n).of_erase fun j => Store.line?_invalidate ..
    exact (h.setNode n hx).reply (by simp)

omit [DecidableEq Val] in
theorem Cluster.Has.found (n : Node) (key : Key) {value : Option Val} (hv : V key value)
    (source : Name) : (s.found d n key value source).Has V P := by
  cases value with
  | none => exact h.reply (by simp)
  | some v =>
    have hnode := h.setNode n ((h.nodes n).readFetched hP (d.nodeId n) source hv)
    simp only [Cluster.found]
    split
    · rename_i value he
      refine hnode.reply fun n' key' v' hr => ?_
      cases hr
      rwa [Option.some.inj (readFetched_ok he)]
    · exact hnode

theorem Cluster.Has.step {a : Action Node Name Task Key Val} (hg : Gives V a)
    (ht : Transition d s a t) : t.Has V P := by
  have hread (n : Node) (key : Key) : (s.setNode n ((s.nodes n).read key).2).Has V P :=
    h.setNode n ((h.nodes n).read hP key)
  have hwrite (n : Node) (key : Key) {value : Option Val} (hv : V key value) :
      (s.setNode n ((s.nodes n).write key value).2).Has V P :=
    h.setNode n ((h.nodes n).write hP hv)
  have hlater {task : Task} {c : Call Node Name Key Val} (hc : s.calls.get? task = some c)
      {as : Multiset (Answer Name Val)} (hsub : as ⊆ c.answers) : ∀ a ∈ as, a.From P c.key :=
    fun a ha => h.answers task c hc a (hsub ha)
  cases ht with
  | readHit n task key value hr =>
    refine (hread n key).reply fun n' key' v he => ?_
    cases he
    rw [CacheNode.read_fst] at hr
    obtain ⟨line, hl, hline⟩ := Option.bind_eq_some_iff.mp hr
    split at hline
    · cases hline
    · have hv := hP.value (h.nodes n key line hl)
      rwa [Option.some.inj hline] at hv
  | readAlone n task key hr hpeers => exact (hread n key).reply (by simp)
  | readFetch n task key htask hr hpeers =>
    exact (hread n key).setCall task (fun a ha => absurd ha (Multiset.notMem_zero a)) nofun
  | writeOwned n task key value howns => exact (hwrite n key hg).reply (by simp)
  | writeAlone n task key value howns htargets =>
    exact (hwrite n key hg).invalidated hP n key fun v he => by cases he; exact hg
  | writeAsk n task key value htask howns htargets =>
    exact (hwrite n key hg).setCall task (fun a ha => absurd ha (Multiset.notMem_zero a))
      fun v he => by cases he; exact hg
  | deleteAlone n task key htargets => exact h.invalidated hP n key nofun
  | deleteAsk n task key htask htargets =>
    exact h.setCall task (fun a ha => absurd ha (Multiset.notMem_zero a)) nofun
  | handle task name c q hc hname hq =>
    refine (h.setNode q ((h.nodes q).handleCoherenceMessage hP (d.nodeId q) (c.request d))).setCall
      task (fun a ha => ?_) (h.writes task c hc)
    cases Multiset.mem_cons.mp ha with
    | inl hnew => exact hnew ▸ (h.nodes q).answer hP (d.nodeId q) c d
    | inr hold => exact h.answers task c hc a hold
  | handleStray name r q hr hq =>
    have hnode := h.setNode q ((h.nodes q).handleCoherenceMessage hP (d.nodeId q) r)
    exact hnode.congr rfl rfl rfl
  | drop name r hr => exact h.congr rfl rfl rfl
  | found task c value state nodeId hc hgoal ha =>
    obtain ⟨l, hl, hvalue, -⟩ := h.answers task c hc _ ha value state nodeId rfl
    have hstray := (h.endCall task).congr (t := (s.endCall task).addStray c.sent (c.request d))
      rfl rfl rfl
    exact hstray.found hP c.node c.key (hvalue ▸ hP.value hl) nodeId
  | receive task a c hc ha hkind =>
    exact h.settle task (hlater hc (Multiset.erase_subset _ _)) (h.writes task c hc)
  | timeOut task name c hc hname =>
    have hstray := h.congr (t := s.addStray {name} (c.request d)) rfl rfl rfl
    exact hstray.settle task (h.answers task c hc) (h.writes task c hc)
  | timeOutAnswer task a c hc ha =>
    exact h.settle task (hlater hc (Multiset.erase_subset _ _)) (h.writes task c hc)
  | resume task c hc hgoal hdone =>
    exact (h.endCall task).invalidated hP c.node c.key (h.writes task c hc)
  | update n key value version => exact h.setNode n ((h.nodes n).handleUpdate hP hg version)

end Step

theorem has_reach (hP : Lasting V P) (h : (cluster d).Reach (fun _ a => Gives V a) s) :
    s.Has V P := by
  have hempty : ((cluster d).init : Cluster Node Name Task Key Val).Has V P := by
    refine ⟨fun n key line hl => ?_, nofun, nofun, nofun⟩
    cases (Store.line?_new key (d.policy n) (d.capacity n)).symm.trans hl
  exact h.invariant (I := fun s => s.Has V P) hempty
    fun s a t _ hs ha ht => hs.step hP ha (step_cases ht)

/-- The value was written to the key, or an update of the key brought it. -/
def GivenIn (as : List (Action Node Name Task Key Val)) (key : Key) (value : Option Val) : Prop :=
  (∃ n task, .write n task key value ∈ as) ∨ ∃ n version, .update n key value version ∈ as

omit [DecidableEq Key] [DecidableEq Val] in
theorem lasting_value (V : Key → Option Val → Prop) : Lasting V fun key l => V key l.value where
  touch h := h
  demote {key l} h := by rwa [CacheLine.demote_value]
  owned _ hv _ := hv
  updated _ hv _ := hv
  fetched hv := hv
  written hv := hv
  value h := h

/-- No value comes from nowhere. Whatever a node stores for a key, an answer tells or a `read`
returns was given to that key in the run so far. -/
theorem given_before {as : List (Action Node Name Task Key Val)}
    (hr : (cluster d).run (cluster d).init as = some s) :
    (∀ n key, ∀ line ∈ (s.nodes n).store.line? key, GivenIn as key line.value) ∧
      (∀ task c, s.calls.get? task = some c → ∀ value state nodeId,
        .found value state nodeId ∈ c.answers → GivenIn as c.key value) ∧
      ∀ n key v, .value n key (some v) ∈ s.history → GivenIn as key (some v) := by
  have hgives : ∀ a ∈ as, Gives (GivenIn as) a := by
    intro a ha
    cases a with
    | write n task key value => exact .inl ⟨n, task, ha⟩
    | update n key value version => exact .inr ⟨n, version, ha⟩
    | _ => trivial
  have h : s.Has (GivenIn as) fun key l => GivenIn as key l.value :=
    has_reach (lasting_value _) (System.Reach.run .init (System.along_of_mem hgives _) hr)
  refine ⟨h.nodes, fun task c hc value state nodeId ha => ?_, h.replies⟩
  obtain ⟨l, hl, hvalue, -⟩ := h.answers task c hc _ ha value state nodeId rfl
  exact hvalue ▸ hl

/-- Node 0 has written a key, and node 1 reads it. -/
def copied : List (Action (Fin 2) (Fin 2) Nat String Nat) :=
  [.write 0 0 "k" (some 7), .handle 0 1, .receive 0 .ok, .resume 0, .read 1 1 "k", .handle 1 0]

def pair : System (Cluster (Fin 2) (Fin 2) Nat String Nat) (Action (Fin 2) (Fin 2) Nat String Nat) :=
  cluster (.mesh 2 .lru 1)

theorem given_before_copied : ∃ s, pair.run pair.init copied = some s ∧
    (s.nodes 0).store.line? "k" ≠ none ∧
    (∀ n key, ∀ line ∈ (s.nodes n).store.line? key, GivenIn copied key line.value) ∧
    (∀ task c, s.calls.get? task = some c → ∀ value state nodeId,
      .found value state nodeId ∈ c.answers → GivenIn copied c.key value) ∧
    ∀ n key v, .value n key (some v) ∈ s.history → GivenIn copied key (some v) := by
  have hrun : (pair.run pair.init copied).any (fun s =>
      ((s.nodes 0).store.line? "k").isSome) = true := by
    decide +kernel
  obtain ⟨s, hs, hline⟩ := (Option.any_eq_true ..).mp hrun
  exact ⟨s, hs, Option.isSome_iff_ne_none.mp hline, given_before hs⟩

omit [DecidableEq Key] [DecidableEq Val] in
theorem lasting_state : Lasting (fun (_ : Key) (_ : Option Val) => True)
    fun _ l => l.state = .shared ∨ l.state = .modified where
  touch h := h
  demote {key l} h := by
    refine .inl (l.demote_state.resolve_right fun hi => ?_)
    cases h with
    | inl hs => cases hs.symm.trans hi.2
    | inr hm => cases hm.symm.trans hi.2
  owned _ _ _ := .inr rfl
  updated _ _ _ := .inl rfl
  fetched _ := .inl rfl
  written _ := .inr rfl
  value _ := trivial

/-- No line is ever EXCLUSIVE: all are SHARED or MODIFIED, and those a node tells of are SHARED. -/
theorem never_exclusive (h : (cluster d).Reachable s) :
    (∀ n key, ∀ line ∈ (s.nodes n).store.line? key,
      line.state = .shared ∨ line.state = .modified) ∧
      ∀ task c, s.calls.get? task = some c → ∀ value state nodeId,
        .found value state nodeId ∈ c.answers → state = .shared := by
  have hs : s.Has (fun _ _ => True) fun _ l => l.state = .shared ∨ l.state = .modified := by
    refine has_reach lasting_state (h.mono fun s a _ => ?_)
    cases a <;> trivial
  refine ⟨hs.nodes, fun task c hc value state nodeId ha => ?_⟩
  obtain ⟨l, hl, -, rfl⟩ := hs.answers task c hc _ ha value state nodeId rfl
  refine l.demote_state.resolve_right fun hi => ?_
  cases hl with
  | inl hshared => cases hshared.symm.trans hi.2
  | inr hmodified => cases hmodified.symm.trans hi.2

theorem never_exclusive_copied : ∃ s, pair.run pair.init copied = some s ∧
    (s.nodes 0).store.line? "k" ≠ none ∧
    (∀ n key, ∀ line ∈ (s.nodes n).store.line? key,
      line.state = .shared ∨ line.state = .modified) ∧
    ∀ task c, s.calls.get? task = some c → ∀ value state nodeId,
      .found value state nodeId ∈ c.answers → state = .shared := by
  have hrun : (pair.run pair.init copied).any (fun s =>
      ((s.nodes 0).store.line? "k").isSome) = true := by
    decide +kernel
  obtain ⟨s, hs, hline⟩ := (Option.any_eq_true ..).mp hrun
  exact ⟨s, hs, Option.isSome_iff_ne_none.mp hline, never_exclusive (System.reachable_run hs)⟩

end Cluster
end DistSync.Cache
