import DistSync.Copies
import DistSync.Cache.Transition

/-! Who owns a key. A write becomes owner after its round of invalidations, and no lock keeps
others from getting a copy in the meantime; where none is left elsewhere by then, the nodes
that own a key are the only ones that hold it. -/
namespace DistSync.Cache
variable {Node Name Task Key Val : Type} [DecidableEq Node] [DecidableEq Name]
  [DecidableEq Task] [DecidableEq Key] [DecidableEq Val]

/-- The call is a read by `n`, and a copy of the key is under way to it. -/
def Call.Brings (c : Call Node Name Key Val) (n : Node) (key : Key) : Prop :=
  c.goal = .read ∧ c.node = n ∧ c.key = key ∧ ∃ a ∈ c.answers, a.carries

instance (c : Call Node Name Key Val) (n : Node) (key : Key) : Decidable (c.Brings n key) :=
  have : Decidable (∃ a ∈ c.answers, a.carries = true) := Multiset.decidableExistsMultiset
  inferInstanceAs (Decidable (_ ∧ _ ∧ _ ∧ _))

namespace Cluster
variable (s : Cluster Node Name Task Key Val)

def Incoming (n : Node) (key : Key) : Prop := ∃ e ∈ s.calls.entries, e.2.Brings n key

instance (n : Node) (key : Key) : Decidable (s.Incoming n key) :=
  inferInstanceAs (Decidable (∃ e ∈ _, _))

def Alone (n : Node) (key : Key) : Prop :=
  ∀ m, m ≠ n → ¬ (s.nodes m).Holds key ∧ ¬ s.Incoming m key

instance [Fintype Node] (n : Node) (key : Key) : Decidable (s.Alone n key) :=
  inferInstanceAs (Decidable (∀ _, _))

def SingleWriter : Prop :=
  ∀ n m key, (s.nodes n).Owns key → m ≠ n → ¬ (s.nodes m).Holds key

end Cluster

/-- A write that comes back from `_invalidate_others` and is going to bind the key finds no
copy left elsewhere. -/
def TakesAlone (d : Deployment Node Name) (s : Cluster Node Name Task Key Val) :
    Action Node Name Task Key Val → Prop
  | .write n _ key value =>
    ¬ (s.nodes n).Owns key → (s.nodes n).targets (d.nodeId n) key (d.peers n) = ∅ →
      ((s.nodes n).write key value).2.store.Binds key → s.Alone n key
  | .resume task => ∀ c ∈ s.calls.get? task, c.goal.isWrite → c.Done →
      (s.nodes c.node).store.Binds c.key → s.Alone c.node c.key
  | _ => True

instance [Fintype Node] (d : Deployment Node Name) (s : Cluster Node Name Task Key Val)
    (a : Action Node Name Task Key Val) : Decidable (TakesAlone d s a) :=
  match a with
  | .write _ _ _ _ => inferInstanceAs (Decidable (_ → _))
  | .resume _ => inferInstanceAs (Decidable (∀ c ∈ _, _))
  | .read _ _ _ | .delete _ _ _ | .handle _ _ | .handleStray _ _ | .drop _ _ | .receive _ _
  | .timeOut _ _ | .timeOutAnswer _ _ | .update _ _ _ _ => .isTrue trivial

section Lowers
omit [DecidableEq Val]

def CacheNode.Lowers (x' x : CacheNode Name Key Val) : Prop :=
  ∀ key, (x'.Owns key → x.Owns key) ∧ (x'.Holds key → x.Holds key)

variable {x x' : CacheNode Name Key Val} {key : Key}

omit [DecidableEq Name] in
theorem CacheNode.Owns.holds (h : x.Owns key) : x.Holds key := by
  obtain ⟨line, hl, hs⟩ := h
  refine ⟨line, hl, fun hi => ?_⟩
  rw [hi] at hs
  cases hs with
  | inl hm => cases hm
  | inr he => cases he

omit [DecidableEq Name] in
theorem lowers_of_map {f : CacheLine Val → CacheLine Val}
    (hline : ∀ j, x'.store.line? j =
      if j = key then (x.store.line? key).map f else x.store.line? j)
    (howned : ∀ l, (f l).state = .modified ∨ (f l).state = .exclusive →
      l.state = .modified ∨ l.state = .exclusive)
    (hvalid : ∀ l, (f l).state ≠ .invalid → l.state ≠ .invalid) : x'.Lowers x := by
  intro j
  unfold CacheNode.Owns CacheNode.Holds
  rw [hline]
  by_cases hj : j = key
  · subst hj
    rw [if_pos rfl]
    constructor
    · intro hx
      obtain ⟨line, hline, hs⟩ := hx
      obtain ⟨l, hl, rfl⟩ := Option.map_eq_some_iff.mp hline
      exact ⟨l, hl, howned l hs⟩
    · intro hx
      obtain ⟨line, hline, hs⟩ := hx
      obtain ⟨l, hl, rfl⟩ := Option.map_eq_some_iff.mp hline
      exact ⟨l, hl, hvalid l hs⟩
  · rw [if_neg hj]
    exact ⟨id, id⟩

omit [DecidableEq Name] in
theorem lowers_of_erase
    (hline : ∀ j, x'.store.line? j = if j = key then none else x.store.line? j) :
    x'.Lowers x := by
  intro j
  unfold CacheNode.Owns CacheNode.Holds
  rw [hline]
  split
  · constructor <;> rintro ⟨_, hl, _⟩ <;> cases hl
  · exact ⟨id, id⟩

variable (x) (key) (nodeId : Name) (value : Option Val)

omit [DecidableEq Name] in
theorem lowers_read : (x.read key).2.Lowers x :=
  lowers_of_map (fun _ => CacheNode.line?_read ..) (fun _ h => h) fun _ h => h

omit [DecidableEq Name] in
theorem lowers_write : (x.write key value).2.Lowers x := by
  refine lowers_of_map (fun j => CacheNode.line?_write ..) (fun l h => ?_) fun l h hi => ?_
  · by_contra hn
    rw [if_neg hn] at h
    exact hn h
  · rw [if_neg (by simp [hi])] at h
    exact h hi

omit [DecidableEq Name] in
theorem lowers_handleInvalidation : (x.handleInvalidation key).Lowers x :=
  lowers_of_erase fun _ => CacheNode.line?_handleInvalidation ..

omit [DecidableEq Name] in
theorem lowers_deleteInvalidated : (x.deleteInvalidated key).Lowers x :=
  lowers_of_erase fun _ => Store.line?_invalidate ..

theorem lowers_handleFetchRequest (requester : Name) :
    (x.handleFetchRequest nodeId key requester).2.Lowers x := by
  refine lowers_of_map (fun j => CacheNode.line?_handleFetchRequest ..) (fun l h => ?_)
    fun l h hi => ?_
  · cases l.touch.demote_state with
    | inl hs => simp [hs] at h
    | inr hs => simp [hs.1] at h
  · cases l.touch.demote_state with
    | inl hs => simp [CacheLine.demote, hi] at hs
    | inr hs => exact h hs.1

omit [DecidableEq Name] in
theorem lowers_handleUpdate (version : Int) : (x.handleUpdate key value version).Lowers x := by
  refine lowers_of_map (fun j => CacheNode.line?_handleUpdate ..) (fun l h => ?_) fun l h hi => ?_
  · split at h
    · exact h
    · simp at h
  · rw [if_pos hi] at h
    exact h hi

theorem lowers_handleCoherenceMessage (r : Request Name Key) :
    (x.handleCoherenceMessage nodeId r).2.Lowers x := by
  cases r with
  | fetch key requester => exact lowers_handleFetchRequest x key nodeId requester
  | invalidate key sender => exact lowers_handleInvalidation x key

theorem not_owns_handleFetchRequest (requester : Name) :
    ¬ (x.handleFetchRequest nodeId key requester).2.Owns key := by
  intro hx
  obtain ⟨line, hl, hs⟩ := hx
  rw [CacheNode.line?_handleFetchRequest, if_pos rfl] at hl
  obtain ⟨l, _, rfl⟩ := Option.map_eq_some_iff.mp hl
  cases l.touch.demote_state with
  | inl h => simp [h] at hs
  | inr h => simp [h.1] at hs

omit [DecidableEq Name] in
theorem owns_of_put {l : CacheLine Val} {j : Key} (hstore : x'.store = (x.store.put key l).2)
    (h : x'.Owns j) : x.Owns j ∨ j = key ∧ (l.state = .modified ∨ l.state = .exclusive) := by
  obtain ⟨line, hl, hs⟩ := h
  rw [hstore] at hl
  cases Store.line?_put _ hl with
  | inl hold => exact .inl ⟨line, hold, hs⟩
  | inr hnew => exact .inr ⟨hnew.1, hnew.2 ▸ hs⟩

omit [DecidableEq Name] in
theorem holds_of_put {l : CacheLine Val} {j : Key} (hstore : x'.store = (x.store.put key l).2)
    (h : x'.Holds j) : x.Holds j ∨ j = key := by
  obtain ⟨line, hl, hs⟩ := h
  rw [hstore] at hl
  cases Store.line?_put _ hl with
  | inl hold => exact .inl ⟨line, hold, hs⟩
  | inr hnew => exact .inr hnew.1

omit [DecidableEq Name] in
theorem lowers_writeInvalidated (h : ¬ x.store.Binds key) :
    (x.writeInvalidated nodeId key value).2.Lowers x := by
  intro j
  unfold CacheNode.Owns CacheNode.Holds
  rw [CacheNode.writeInvalidated_store, Store.line?_put_of_not_binds _ h]
  exact ⟨id, id⟩

omit [DecidableEq Name] in
theorem owns_writeInvalidated (h : x.store.Binds key) :
    (x.writeInvalidated nodeId key value).2.Owns key := by
  unfold CacheNode.Owns
  rw [CacheNode.writeInvalidated_store]
  have hstored {o : Option (CacheLine Val)}
      (ho : o = some { value := value, state := .modified, dirty := true }) :
      ∃ line ∈ o, line.state = .modified ∨ line.state = .exclusive :=
    ⟨_, ho, .inl rfl⟩
  cases x.store.put_cases key { value := value, state := .modified, dirty := true } with
  | raised hr => exact absurd hr (Store.put_ne_raised _ h.1 _)
  | kept _ _ hkept =>
    have hnot := h.2
    cases hkept with
    | inl hlru =>
      rw [hlru.1] at hnot
      exact absurd hnot hlru.2
    | inr hlfu =>
      rw [hlfu.1] at hnot
      exact absurd hnot (not_lt.mpr hlfu.2)
  | stored _ hlines => exact hstored ((hlines key).trans (if_pos rfl))
  | evicted _ _ hlines => exact hstored ((hlines key).trans (if_pos rfl))

end Lowers

section Moves
variable {d : Deployment Node Name} {s t : Cluster Node Name Task Key Val} {key : Key}

def Cluster.copies (s : Cluster Node Name Task Key Val) (key : Key) : Copies Node where
  owners := { n | (s.nodes n).Owns key }
  holders := { n | (s.nodes n).Holds key }
  incoming := { n | s.Incoming n key }
  owners_subset := fun _ h => h.holds

omit [DecidableEq Node] [DecidableEq Task] [DecidableEq Name] [DecidableEq Val] in
theorem singleWriter_of_sole (h : ∀ key, (s.copies key).Sole) : s.SingleWriter :=
  fun n _ key ho hm hh => hm ((h key n ho).1 hh)

omit [DecidableEq Task] [DecidableEq Name] [DecidableEq Val] in
theorem copies_alone_iff {n : Node} : (s.copies key).Alone n ↔ s.Alone n key := by
  constructor
  · intro h m hm
    exact ⟨fun hh => hm (h.1 hh), fun hi => hm (h.2 hi)⟩
  · intro h
    constructor
    · intro m hh
      by_contra hm
      exact (h m hm).1 hh
    · intro m hi
      by_contra hm
      exact (h m hm).2 hi

omit [DecidableEq Name] [DecidableEq Val] in
theorem lowers_refl (x : CacheNode Name Key Val) : x.Lowers x :=
  fun _ => ⟨id, id⟩

omit [DecidableEq Name] [DecidableEq Val] in
theorem lowers_trans {x y z : CacheNode Name Key Val} (h : x.Lowers y) (h' : y.Lowers z) :
    x.Lowers z :=
  fun j => ⟨fun ho => (h' j).1 ((h j).1 ho), fun hh => (h' j).2 ((h j).2 hh)⟩

omit [DecidableEq Node] [DecidableEq Task] [DecidableEq Name] [DecidableEq Val] in
theorem copies_le (hnodes : ∀ n, (t.nodes n).Lowers (s.nodes n))
    (hincoming : ∀ n, t.Incoming n key → s.Incoming n key) : t.copies key ≤ s.copies key :=
  ⟨fun n h => (hnodes n key).1 h, fun n h => (hnodes n key).2 h, hincoming⟩

omit [DecidableEq Task] [DecidableEq Name] [DecidableEq Val] in
theorem lowers_setNode {n : Node} {x : CacheNode Name Key Val} (h : x.Lowers (s.nodes n))
    (m : Node) : ((s.setNode n x).nodes m).Lowers (s.nodes m) := by
  by_cases hm : m = n
  · subst hm
    rwa [setNode_self]
  · rw [setNode_of_ne s x hm]
    exact lowers_refl _

omit [DecidableEq Node] [DecidableEq Name] [DecidableEq Key] [DecidableEq Val] in
theorem incoming_iff {n : Node} :
    s.Incoming n key ↔ ∃ task c, s.calls.get? task = some c ∧ c.Brings n key := by
  constructor
  · intro hx
    obtain ⟨e, he, hb⟩ := hx
    exact ⟨e.1, e.2, Dict.get?_eq_some.mpr he, hb⟩
  · intro hx
    obtain ⟨task, c, hc, hb⟩ := hx
    exact ⟨(task, c), Dict.get?_eq_some.mp hc, hb⟩

omit [DecidableEq Node] [DecidableEq Name] [DecidableEq Task] [DecidableEq Key] [DecidableEq Val] in
theorem incoming_congr {n : Node} (h : t.calls = s.calls) :
    t.Incoming n key ↔ s.Incoming n key := by
  unfold Cluster.Incoming
  rw [h]

omit [DecidableEq Node] [DecidableEq Name] [DecidableEq Key] [DecidableEq Val] in
theorem incoming_setCall {n : Node} {task : Task} {c : Call Node Name Key Val}
    (h : (s.setCall task c).Incoming n key) : s.Incoming n key ∨ c.Brings n key := by
  obtain ⟨task', c', hc, hb⟩ := incoming_iff.mp h
  rw [setCall_calls, Dict.get?_set] at hc
  split at hc
  · cases hc
    exact .inr hb
  · exact .inl (incoming_iff.mpr ⟨task', c', hc, hb⟩)

omit [DecidableEq Node] [DecidableEq Name] [DecidableEq Key] [DecidableEq Val] in
theorem incoming_endCall {n : Node} {task : Task} (h : (s.endCall task).Incoming n key) :
    s.Incoming n key := by
  obtain ⟨task', c', hc, hb⟩ := incoming_iff.mp h
  rw [endCall_calls, Dict.get?_erase] at hc
  split at hc
  · cases hc
  · exact incoming_iff.mpr ⟨task', c', hc, hb⟩

omit [DecidableEq Node] [DecidableEq Key] in
theorem incoming_settle {n : Node} {task : Task} {c : Call Node Name Key Val}
    (h : (s.settle task c).Incoming n key) : s.Incoming n key ∨ c.Brings n key := by
  unfold Cluster.settle at h
  split at h
  · exact .inl (incoming_endCall h)
  · exact incoming_setCall h

omit [DecidableEq Node] [DecidableEq Name] [DecidableEq Key] [DecidableEq Val] in
theorem not_brings_of_zero {n m : Node} {key' : Key} {goal : Goal Val} {sent : Multiset Name} :
    ¬ (⟨m, key', goal, sent, 0⟩ : Call Node Name Key Val).Brings n key := by
  intro hx
  obtain ⟨_, _, _, a, ha, _⟩ := hx
  exact Multiset.notMem_zero a ha

omit [DecidableEq Node] in
theorem copies_settle {task : Task} {c : Call Node Name Key Val}
    (hc : s.calls.get? task = some c) (sent : Multiset Name) {answers : Multiset (Answer Name Val)}
    (hsub : answers ⊆ c.answers) :
    (s.settle task { c with sent := sent, answers := answers }).copies key ≤ s.copies key := by
  refine copies_le (fun m => ?_) fun m hi => ?_
  · rw [settle_nodes]
    exact lowers_refl _
  · cases incoming_settle hi with
    | inl hold => exact hold
    | inr hb =>
      obtain ⟨hgoal, hnode, hkey, a, ha, hcarries⟩ := hb
      exact incoming_iff.mpr ⟨task, c, hc, hgoal, hnode, hkey, a, hsub ha, hcarries⟩

omit [DecidableEq Task] [DecidableEq Name] [DecidableEq Val] in
/-- A node puts a line of `key` after it has become `x`: nobody else gets anything, and it
gets no other key. -/
theorem owns_setNode_put {n : Node} {x y : CacheNode Name Key Val} {l : CacheLine Val} {j : Key}
    (hx : x.Lowers (s.nodes n)) (hstore : y.store = (x.store.put key l).2)
    (hnodes : t.nodes = (s.setNode n y).nodes) {m : Node} (ho : (t.nodes m).Owns j) :
    (s.nodes m).Owns j ∨ (j = key ∧ m = n) ∧ (l.state = .modified ∨ l.state = .exclusive) := by
  rw [hnodes] at ho
  by_cases hm : m = n
  · subst hm
    rw [setNode_self] at ho
    cases owns_of_put _ key hstore ho with
    | inl hold => exact .inl ((hx j).1 hold)
    | inr hnew => exact .inr ⟨⟨hnew.1, rfl⟩, hnew.2⟩
  · rw [setNode_of_ne _ _ hm] at ho
    exact .inl ho

omit [DecidableEq Task] [DecidableEq Name] [DecidableEq Val] in
theorem holds_setNode_put {n : Node} {x y : CacheNode Name Key Val} {l : CacheLine Val} {j : Key}
    (hx : x.Lowers (s.nodes n)) (hstore : y.store = (x.store.put key l).2)
    (hnodes : t.nodes = (s.setNode n y).nodes) {m : Node} (hh : (t.nodes m).Holds j) :
    (s.nodes m).Holds j ∨ j = key ∧ m = n := by
  rw [hnodes] at hh
  by_cases hm : m = n
  · subst hm
    rw [setNode_self] at hh
    cases holds_of_put _ key hstore hh with
    | inl hold => exact .inl ((hx j).2 hold)
    | inr hnew => exact .inr ⟨hnew, rfl⟩
  · rw [setNode_of_ne _ _ hm] at hh
    exact .inl hh

omit [DecidableEq Task] [DecidableEq Name] [DecidableEq Val] in
theorem move_take {n : Node} {x : CacheNode Name Key Val} {key j : Key} {value : Option Val}
    (hx : x.Lowers (s.nodes n)) (halone : x.store.Binds key → s.Alone n key)
    (hnodes : t.nodes = (s.setNode n (x.writeInvalidated (d.nodeId n) key value).2).nodes)
    (hincoming : ∀ m, t.Incoming m j → s.Incoming m j) : (s.copies j).Move (t.copies j) := by
  have hstore := CacheNode.writeInvalidated_store x (d.nodeId n) key value
  by_cases hb : x.store.Binds key
  · have howns (m : Node) (ho : (t.nodes m).Owns j) : (s.nodes m).Owns j ∨ j = key ∧ m = n :=
      (owns_setNode_put hx hstore hnodes ho).imp_right And.left
    have hholds (m : Node) (hh : (t.nodes m).Holds j) : (s.nodes m).Holds j ∨ j = key ∧ m = n :=
      holds_setNode_put hx hstore hnodes hh
    by_cases hj : j = key
    · subst hj
      refine .take n (copies_alone_iff.mpr (halone hb)) (fun m ho => ?_) (fun m hh => ?_) hincoming
      · exact (howns m ho).symm.imp And.right id
      · exact (hholds m hh).symm.imp And.right id
    · refine .shrink ⟨fun m ho => ?_, fun m hh => ?_, hincoming⟩
      · exact (howns m ho).resolve_right fun h => hj h.1
      · exact (hholds m hh).resolve_right fun h => hj h.1
  · have hlow := lowers_trans (lowers_writeInvalidated x key (d.nodeId n) value hb) hx
    refine .shrink (copies_le (fun m => ?_) hincoming)
    rw [hnodes]
    exact lowers_setNode hlow m

theorem move_handle {task : Task} {c : Call Node Name Key Val} {q : Node} {name : Name}
    {j : Key} (hc : s.calls.get? task = some c) :
    (s.copies j).Move (((s.setNode q
      ((s.nodes q).handleCoherenceMessage (d.nodeId q) (c.request d)).2).setCall task
      { c with
        sent := c.sent.erase name
        answers :=
          ((s.nodes q).handleCoherenceMessage (d.nodeId q) (c.request d)).1 ::ₘ
            c.answers }).copies j) := by
  have hlow := lowers_handleCoherenceMessage (s.nodes q) (d.nodeId q) (c.request d)
  by_cases hcarries : c.goal = .read ∧ c.key = j ∧
      ((s.nodes q).handleCoherenceMessage (d.nodeId q) (c.request d)).1.carries
  · obtain ⟨hgoal, rfl, hcarries⟩ := hcarries
    simp only [Call.request, hgoal, CacheNode.handleCoherenceMessage] at hlow hcarries ⊢
    refine .send q ?_ fun m ho => ⟨(lowers_setNode hlow m c.key).1 ho, ?_⟩
    · have hanswer := CacheNode.handleFetchRequest_fst (s.nodes q) (d.nodeId q) c.key
        (d.nodeId c.node) rfl
      cases hanswer with
      | inl hnone =>
        rw [hnone.1] at hcarries
        cases hcarries
      | inr hline =>
        obtain ⟨line, hl, hvalid, _⟩ := hline
        exact ⟨line, hl, hvalid⟩
    · intro heq
      subst heq
      have ho' : ((s.setNode m ((s.nodes m).handleFetchRequest (d.nodeId m) c.key
        (d.nodeId c.node)).2).nodes m).Owns c.key := ho
      rw [setNode_self] at ho'
      exact not_owns_handleFetchRequest (s.nodes m) c.key (d.nodeId m) (d.nodeId c.node) ho'
  · refine .shrink (copies_le (lowers_setNode hlow) fun m hi => ?_)
    cases incoming_setCall hi with
    | inl hold => exact hold
    | inr hb =>
      obtain ⟨hgoal, hnode, hkey, a, ha, hca⟩ := hb
      cases Multiset.mem_cons.mp ha with
      | inl hnew => exact absurd ⟨hgoal, hkey, hnew ▸ hca⟩ hcarries
      | inr hold => exact incoming_iff.mpr ⟨task, c, hc, hgoal, hnode, hkey, a, hold, hca⟩

omit [DecidableEq Val] in
theorem move_found {task : Task} {c : Call Node Name Key Val} {value : Option Val}
    {state : MESIState} {source : Name} {j : Key} (hc : s.calls.get? task = some c)
    (hgoal : c.goal = .read) (ha : .found value state source ∈ c.answers) :
    (s.copies j).Move ((((s.endCall task).addStray c.sent (c.request d)).found d c.node c.key
      value source).copies j) := by
  have hincoming (m : Node) (hi : (((s.endCall task).addStray c.sent (c.request d)).found d
      c.node c.key value source).Incoming m j) : s.Incoming m j := by
    have hcalls : (((s.endCall task).addStray c.sent (c.request d)).found d c.node c.key value
        source).calls = (s.endCall task).calls := found_calls ..
    exact incoming_endCall ((incoming_congr hcalls).mp hi)
  cases value with
  | none => exact .shrink (copies_le (fun m => lowers_refl _) hincoming)
  | some v =>
    have hnodes := found_some_nodes ((s.endCall task).addStray c.sent (c.request d)) c.node d
      c.key v source
    have hstore := CacheNode.readFetched_store (s.nodes c.node) (d.nodeId c.node) c.key v
      (some source)
    have howns (m : Node) (ho : ((((s.endCall task).addStray c.sent (c.request d)).found d
        c.node c.key (some v) source).nodes m).Owns j) : (s.nodes m).Owns j :=
      (owns_setNode_put (lowers_refl _) hstore hnodes ho).resolve_right fun h => by simp at h
    have hholds (m : Node) (hh : ((((s.endCall task).addStray c.sent (c.request d)).found d
        c.node c.key (some v) source).nodes m).Holds j) :
        (s.nodes m).Holds j ∨ j = c.key ∧ m = c.node :=
      holds_setNode_put (lowers_refl _) hstore hnodes hh
    by_cases hj : j = c.key
    · subst hj
      have harrive : s.Incoming c.node c.key :=
        incoming_iff.mpr ⟨task, c, hc, hgoal, rfl, rfl, _, ha, rfl⟩
      refine .arrive c.node harrive howns (fun m hh => ?_) hincoming
      exact (hholds m hh).symm.imp And.right id
    · refine .shrink ⟨howns, fun m hh => ?_, hincoming⟩
      exact (hholds m hh).resolve_right fun h => hj h.1

theorem step_move {a : Action Node Name Task Key Val} (ht : Transition d s a t)
    (hg : TakesAlone d s a) (j : Key) : (s.copies j).Move (t.copies j) := by
  cases ht with
  | readHit n task key value hr =>
    exact .shrink (copies_le (lowers_setNode (lowers_read _ key)) fun _ hi => hi)
  | readAlone n task key hr hpeers =>
    exact .shrink (copies_le (lowers_setNode (lowers_read _ key)) fun _ hi => hi)
  | readFetch n task key htask hr hpeers =>
    refine .shrink (copies_le (lowers_setNode (lowers_read _ key)) fun m hi => ?_)
    exact (incoming_setCall hi).resolve_right not_brings_of_zero
  | writeOwned n task key value howns =>
    exact .shrink (copies_le (lowers_setNode (lowers_write _ key value)) fun _ hi => hi)
  | writeAlone n task key value howns htargets =>
    have hnodes := setNode_invalidated_nodes s n ((s.nodes n).write key value).2 d key value
    refine move_take (lowers_write _ key value) (fun hb => ?_) hnodes fun m hi => ?_
    · exact hg howns htargets hb
    · have hcalls : ((s.setNode n ((s.nodes n).write key value).2).invalidated d n key
          (.write value)).calls = s.calls := invalidated_calls ..
      exact (incoming_congr hcalls).mp hi
  | writeAsk n task key value htask howns htargets =>
    refine .shrink (copies_le (lowers_setNode (lowers_write _ key value)) fun m hi => ?_)
    exact (incoming_setCall hi).resolve_right not_brings_of_zero
  | deleteAlone n task key htargets =>
    exact .shrink (copies_le (lowers_setNode (lowers_deleteInvalidated _ key)) fun _ hi => hi)
  | deleteAsk n task key htask htargets =>
    refine .shrink (copies_le (fun _ => lowers_refl _) fun m hi => ?_)
    exact (incoming_setCall hi).resolve_right not_brings_of_zero
  | handle task name c q hc hname hq => exact move_handle hc
  | handleStray name r q hr hq =>
    exact .shrink (copies_le (lowers_setNode (lowers_handleCoherenceMessage _ _ r)) fun _ hi => hi)
  | drop name r hr => exact .shrink (copies_le (fun _ => lowers_refl _) fun _ hi => hi)
  | found task c value state nodeId hc hgoal ha => exact move_found hc hgoal ha
  | receive task a c hc ha hkind =>
    exact .shrink (copies_settle hc c.sent (Multiset.subset_of_le (Multiset.erase_le a c.answers)))
  | timeOut task name c hc hname =>
    have hle : ((s.addStray {name} (c.request d)).settle task
        { c with sent := c.sent.erase name }).copies j ≤ s.copies j :=
      copies_settle (s := s.addStray {name} (c.request d)) hc _ (Multiset.Subset.refl c.answers)
    exact .shrink hle
  | timeOutAnswer task a c hc ha =>
    exact .shrink (copies_settle hc c.sent (Multiset.subset_of_le (Multiset.erase_le a c.answers)))
  | resume task c hc hgoal hdone =>
    have hincoming (m : Node) (hi : ((s.endCall task).invalidated d c.node c.key c.goal).Incoming
        m j) : s.Incoming m j :=
      incoming_endCall ((incoming_congr (invalidated_calls ..)).mp hi)
    cases hkind : c.goal with
    | read => exact absurd hkind hgoal
    | write value =>
      rw [hkind] at hincoming
      refine move_take (lowers_refl _) (fun hb => ?_) (invalidated_write_nodes ..) hincoming
      exact hg c hc (by rw [hkind]; rfl) hdone hb
    | delete =>
      rw [hkind] at hincoming
      exact .shrink (copies_le (lowers_setNode (lowers_deleteInvalidated _ c.key)) hincoming)
  | update n key value version =>
    exact .shrink (copies_le (lowers_setNode (lowers_handleUpdate _ key value version))
      fun _ hi => hi)

omit [DecidableEq Task] [DecidableEq Name] [DecidableEq Val] in
theorem alone_of_sole {n : Node} {x : CacheNode Name Key Val} (h : (t.copies key).Sole)
    (hnodes : t.nodes = (s.setNode n x).nodes) (howns : x.Owns key)
    (hincoming : ∀ m, s.Incoming m key → t.Incoming m key) : s.Alone n key := by
  have hn : (t.nodes n).Owns key := by
    rw [hnodes, setNode_self]
    exact howns
  intro m hm
  constructor
  · intro hh
    have hh' : (t.nodes m).Holds key := by
      rwa [hnodes, setNode_of_ne _ _ hm]
    exact hm ((h n hn).1 hh')
  · exact fun hi => hm ((h n hn).2 (hincoming m hi))

/-- A write that finds a copy elsewhere leaves an owner beside a holder, or beside a read that
a copy is under way to. -/
theorem takesAlone_of_sole {a : Action Node Name Task Key Val} (ht : Transition d s a t)
    (h : ∀ key, (t.copies key).Sole) : TakesAlone d s a := by
  cases ht with
  | writeAlone n task key value howns htargets =>
    intro _ _ hb
    have hnodes := setNode_invalidated_nodes s n ((s.nodes n).write key value).2 d key value
    have hcalls : ((s.setNode n ((s.nodes n).write key value).2).invalidated d n key
        (.write value)).calls = s.calls := invalidated_calls ..
    exact alone_of_sole (h key) hnodes (owns_writeInvalidated _ key _ value hb) fun m hi =>
      (incoming_congr hcalls).mpr hi
  | writeOwned n task key value howns => exact fun hn => absurd howns hn
  | writeAsk n task key value htask howns htargets => exact fun _ hn => absurd hn htargets
  | resume task c hc hgoal hdone =>
    intro c' hc' hwrite _ hb
    cases hc.symm.trans hc'
    cases hkind : c.goal with
    | read => exact absurd hkind hgoal
    | delete =>
      rw [hkind] at hwrite
      cases hwrite
    | write value =>
      rw [hkind] at h
      refine alone_of_sole (h c.key) (invalidated_write_nodes ..)
        (owns_writeInvalidated _ c.key _ value hb) fun m hi => ?_
      obtain ⟨task', b, hb, hbrings⟩ := incoming_iff.mp hi
      refine incoming_iff.mpr ⟨task', b, ?_, hbrings⟩
      rw [invalidated_calls, endCall_calls, Dict.get?_erase, if_neg, hb]
      intro heq
      subst heq
      have hcb : c = b := Option.some.inj (hc.symm.trans hb)
      exact hgoal (hcb ▸ hbrings.1)
  | _ => trivial

/-- A step keeps owners alone with their copies exactly if it takes ownership alone. -/
theorem sole_step_iff {a : Action Node Name Task Key Val} (hs : ∀ key, (s.copies key).Sole)
    (ht : Transition d s a t) : (∀ key, (t.copies key).Sole) ↔ TakesAlone d s a :=
  ⟨takesAlone_of_sole ht, fun hg key => (hs key).move (step_move ht hg key)⟩

theorem sole_init (key : Key) :
    ((cluster d : System (Cluster Node Name Task Key Val) _).init.copies key).Sole := by
  rintro n ⟨line, hl, _⟩
  cases (Store.line?_new key (d.policy n) (d.capacity n)).symm.trans hl

end Moves

/-- Every state of a run has a single writer or many readers of each key, if in the run every
write that binds its key finds no copy left elsewhere. -/
theorem singleWriter_of_takesAlone (d : Deployment Node Name)
    (s : Cluster Node Name Task Key Val) (hs : (cluster d).Reach (TakesAlone d) s) :
    s.SingleWriter := by
  have hsole : ∀ key, (s.copies key).Sole := by
    refine hs.invariant (I := fun s => ∀ key, (s.copies key).Sole) sole_init ?_
    exact fun s a t _ ih hg hstep => (sole_step_iff ih (step_cases hstep)).mpr hg
  exact singleWriter_of_sole hsole

section Runs

abbrev trio (policy : Policy) :
    System (Cluster (Fin 3) (Fin 3) Nat String Nat) (Action (Fin 3) (Fin 3) Nat String Nat) :=
  cluster (.mesh 3 policy 10)

/-- Node 0 writes, node 1 reads what it wrote and writes itself. -/
def handedOver : List (Action (Fin 3) (Fin 3) Nat String Nat) :=
  [.write 0 0 "k" (some 1), .handle 0 1, .handle 0 2, .receive 0 .ok, .receive 0 .ok, .resume 0,
    .read 1 1 "k", .handle 1 0, .handle 1 2, .receive 1 (.found (some 1) .shared 0),
    .write 1 2 "k" (some 2), .handle 2 0, .handle 2 2, .receive 2 .ok, .receive 2 .ok, .resume 2]

theorem singleWriter_of_takesAlone_handedOver :
    ∃ s, (trio .lfu).runIf (TakesAlone (.mesh 3 .lfu 10)) (trio .lfu).init handedOver = some s ∧
      (s.nodes 1).Owns "k" ∧ s.SingleWriter := by
  have hrun : ((trio .lfu).runIf (TakesAlone (.mesh 3 .lfu 10)) (trio .lfu).init handedOver).any
      (fun s => (s.nodes 1).Owns "k") = true := by
    decide +kernel
  obtain ⟨s, hs, ho⟩ := (Option.any_eq_true ..).mp hrun
  exact ⟨s, hs, of_decide_eq_true ho,
    singleWriter_of_takesAlone (.mesh 3 .lfu 10) s (System.Reach.init.runIf hs)⟩

/-- Nodes 0 and 1 write at the same time, and each has invalidated what the other had. -/
def concurrentWrites : List (Action (Fin 3) (Fin 3) Nat String Nat) :=
  [.write 0 0 "k" (some 1), .write 1 1 "k" (some 2), .handle 0 1, .handle 0 2, .handle 1 0,
    .handle 1 2, .receive 0 .ok, .receive 0 .ok, .receive 1 .ok, .receive 1 .ok, .resume 0,
    .resume 1]

theorem not_singleWriter_concurrentWrites :
    ∃ s, (trio .lru).Reachable s ∧ ((s.nodes 0).store.line? "k").map CacheLine.state =
      some .modified ∧ ((s.nodes 1).store.line? "k").map CacheLine.state = some .modified ∧
      ¬ s.SingleWriter := by
  have hrun : ((trio .lru).run (trio .lru).init concurrentWrites).any (fun s =>
      ((s.nodes 0).store.line? "k").map CacheLine.state = some .modified ∧
        ((s.nodes 1).store.line? "k").map CacheLine.state = some .modified ∧
        (s.nodes 0).Owns "k" ∧ (s.nodes 1).Holds "k") = true := by
    decide +kernel
  obtain ⟨s, hs, hh⟩ := (Option.any_eq_true ..).mp hrun
  obtain ⟨h0, h1, howns, hholds⟩ := of_decide_eq_true hh
  exact ⟨s, System.reachable_run hs, h0, h1, fun h => h 0 1 "k" howns (by decide) hholds⟩

end Runs

end DistSync.Cache
