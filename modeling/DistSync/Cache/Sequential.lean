import DistSync.Cache.Ownership
import DistSync.Cache.Serial

/-! Reads of a cluster that does one operation after the other. They return what one shared
map would, as long as each write and each DELETE reaches all who have its key, and the store
of a write takes its line. -/
namespace DistSync.Cache
variable {Node Name Task Key Val : Type} [DecidableEq Node] [DecidableEq Name]
  [DecidableEq Task] [DecidableEq Key] [DecidableEq Val]

def Deployment.FullMesh (d : Deployment Node Name) : Prop :=
  ∀ n m, m ≠ n → Reaches d (d.peers n) m

section Guards
variable (d : Deployment Node Name) (s : Cluster Node Name Task Key Val)

def Cluster.Quiet : Prop := s.calls.keys = [] ∧ s.stray = 0

/-- Operations one after the other, of which no message times out and for which no line is
evicted; no write is of `None`. -/
def InTurn : Action Node Name Task Key Val → Prop
  | .read _ _ _ => s.Quiet
  | .write n _ key value => s.Quiet ∧ value ≠ none ∧ (¬ (s.nodes n).Owns key →
      (s.nodes n).targets (d.nodeId n) key (d.peers n) = ∅ →
      ((s.nodes n).write key value).2.store.evicts key = false)
  | .delete _ _ _ => s.Quiet
  | .receive task (.found _ _ _) => ∀ c ∈ s.calls.get? task, c.goal = .read →
      (s.nodes c.node).store.evicts c.key = false
  | .resume task => ∀ c ∈ s.calls.get? task, c.goal.isWrite →
      (s.nodes c.node).store.evicts c.key = false
  | .timeOut _ _ => False
  | .timeOutAnswer _ _ => False
  | .update _ _ _ _ => False
  | _ => True

/-- `n` knows of no other sharer of the key, or of all other nodes that hold it. -/
def Cluster.KnowsHolders (n : Node) (key : Key) : Prop :=
  ((s.nodes n).sharersOf key).erase (d.nodeId n) = ∅ ∨ ∀ m, m ≠ n → (s.nodes m).Holds key →
    Reaches d (((s.nodes n).sharersOf key).erase (d.nodeId n)).val m

/-- Who starts to write or delete a key that it does not own knows the others that hold it;
under the LRU policy a writer holds no line of the key, or one with the value it writes; the
`put` of a write finds a capacity and raises no error, and neither does that of a read. -/
def Covers : Action Node Name Task Key Val → Prop
  | .write n _ key value =>
    ¬ (s.nodes n).Owns key → s.KnowsHolders d n key ∧ (s.nodes n).Rebinds key value ∧
      ((s.nodes n).targets (d.nodeId n) key (d.peers n) = ∅ →
        ((s.nodes n).write key value).2.store.Accepts key)
  | .delete n _ key => s.KnowsHolders d n key
  | .receive task (.found _ _ _) => ∀ c ∈ s.calls.get? task, c.goal = .read →
      (s.nodes c.node).store.raises c.key = false
  | .resume task => ∀ c ∈ s.calls.get? task, c.goal.isWrite → (s.nodes c.node).store.Accepts c.key
  | _ => True

instance : Decidable s.Quiet := inferInstanceAs (Decidable (_ ∧ _))

instance [Fintype Node] (n : Node) (key : Key) : Decidable (s.KnowsHolders d n key) :=
  inferInstanceAs (Decidable (_ ∨ ∀ _, _))

instance (a : Action Node Name Task Key Val) : Decidable (InTurn d s a) :=
  match a with
  | .read _ _ _ | .delete _ _ _ => inferInstanceAs (Decidable s.Quiet)
  | .write _ _ _ _ => inferInstanceAs (Decidable (_ ∧ _))
  | .receive _ (.found _ _ _) | .resume _ => inferInstanceAs (Decidable (∀ c ∈ _, _))
  | .timeOut _ _ | .timeOutAnswer _ _ | .update _ _ _ _ => .isFalse id
  | .receive _ .ok | .receive _ .notFound | .handle _ _ | .handleStray _ _ | .drop _ _ =>
    .isTrue trivial

instance [Fintype Node] (a : Action Node Name Task Key Val) : Decidable (Covers d s a) :=
  match a with
  | .write _ _ _ _ => inferInstanceAs (Decidable (_ → _))
  | .delete n _ key => inferInstanceAs (Decidable (s.KnowsHolders d n key))
  | .receive _ (.found _ _ _) | .resume _ => inferInstanceAs (Decidable (∀ c ∈ _, _))
  | .read _ _ _ | .handle _ _ | .handleStray _ _ | .drop _ _ | .receive _ .ok
  | .receive _ .notFound | .timeOut _ _ | .timeOutAnswer _ _ | .update _ _ _ _ => .isTrue trivial

end Guards

variable {d : Deployment Node Name} {s t : Cluster Node Name Task Key Val}
  {a : Action Node Name Task Key Val} {key : Key}

omit [DecidableEq Node] [DecidableEq Name] [DecidableEq Key] [DecidableEq Val] in
theorem Cluster.Quiet.get?_eq_none (h : s.Quiet) (task : Task) : s.calls.get? task = none :=
  Dict.get?_eq_none.mpr (by rw [h.1]; exact List.not_mem_nil)

omit [DecidableEq Node] [DecidableEq Name] in
theorem not_reaches_of_eq_zero {names : Multiset Name} (h : names = 0) {m : Node} :
    ¬ Reaches d names m := by
  intro hx
  obtain ⟨name, hname, _⟩ := hx
  rw [h] at hname
  exact Multiset.notMem_zero name hname

omit [DecidableEq Node] [DecidableEq Task] [DecidableEq Val] in
theorem Cluster.KnowsHolders.targets (hmesh : d.FullMesh) {n : Node}
    (h : s.KnowsHolders d n key) {m : Node} (hm : m ≠ n) (hh : (s.nodes m).Holds key) :
    Reaches d ((s.nodes n).targets (d.nodeId n) key (d.peers n)).val m := by
  unfold CacheNode.targets
  dsimp only
  split
  · obtain ⟨name, hname, hroute⟩ := hmesh n m hm
    exact ⟨name, List.mem_toFinset.mpr hname, hroute⟩
  · rename_i hknown
    exact (h.resolve_left hknown) m hm hh

omit [DecidableEq Node] [DecidableEq Task] [DecidableEq Val] in
theorem Cluster.KnowsHolders.unheld (hmesh : d.FullMesh) {n : Node} (h : s.KnowsHolders d n key)
    (hnobody : (s.nodes n).targets (d.nodeId n) key (d.peers n) = ∅) {m : Node} (hm : m ≠ n) :
    ¬ (s.nodes m).Holds key := by
  intro hh
  have hempty := congrArg Finset.val hnobody
  exact not_reaches_of_eq_zero hempty (h.targets hmesh hm hh)

namespace Serial

omit [DecidableEq Node] [DecidableEq Name] [DecidableEq Val] in
theorem holds_iff (h : Serial d s) {n : Node} :
    (s.nodes n).Holds key ↔ (s.nodes n).value? key ≠ none :=
  CacheNode.holds_iff (h.valid n)

omit [DecidableEq Node] [DecidableEq Name] [DecidableEq Val] in
theorem lastWritten_eq_none (h : Serial d s)
    (hcalls : ∀ task c, s.calls.get? task = some c → c.goal = .read)
    (hnone : ∀ n, (s.nodes n).value? key = none) : lastWritten key s.history = none := by
  by_contra hk
  cases h.kept key hk with
  | inl hold =>
    obtain ⟨n, hn⟩ := hold
    exact hn (hnone n)
  | inr hpend =>
    obtain ⟨task, c, hc, _, hgoal⟩ := hpend
    exact hgoal (hcalls task c hc)

omit [DecidableEq Node] [DecidableEq Val] in
/-- A write takes the key only when no copy is left elsewhere. -/
theorem takesAlone (h : Serial d s) (hmesh : d.FullMesh) (hi : InTurn d s a)
    (hk : Covers d s a) : TakesAlone d s a := by
  cases a with
  | write n task key value =>
    intro howns htargets _ m hm
    constructor
    · exact (hk howns).1.unheld hmesh htargets hm
    · intro hin
      obtain ⟨task', c, hc, _⟩ := incoming_iff.mp hin
      cases (hi.1.get?_eq_none task').symm.trans hc
  | resume task =>
    intro c hc hwrite hdone _ m hm
    have hp := h.pending task c hc
    cases hgoal : c.goal with
    | read =>
      rw [hgoal] at hwrite
      cases hwrite
    | delete =>
      rw [hgoal] at hwrite
      cases hwrite
    | write value =>
      rw [pending_write hgoal] at hp
      constructor
      · intro hh
        have hreach := hp.2.2 m hm (h.holds_iff.mp hh)
        exact not_reaches_of_eq_zero hdone.1 hreach
      · intro hin
        obtain ⟨task', c', hc', hread, _⟩ := incoming_iff.mp hin
        have hsame := h.call_unique hc hc'
        subst hsame
        cases hgoal.symm.trans hread
  | _ => trivial

theorem read_step (h : Serial d s) (hmesh : d.FullMesh) {n : Node} {task : Task}
    (hq : s.Quiet) (ht : Transition d s (.read n task key) t) : Serial d t := by
  have hread := CacheNode.read_fst_of_valid (s.nodes n) key (h.valid n)
  have hnode := h.setNode (CacheNode.alike_read (s.nodes n) key)
  cases ht with
  | readHit _ _ _ value hr => exact hnode.reply_value (h.agree n key value (hread.symm.trans hr)).1
  | readAlone _ _ _ hr hpeers =>
    refine hnode.reply_value (h.lastWritten_eq_none (fun task' c hc => ?_) fun m => ?_).symm
    · cases (hq.get?_eq_none task').symm.trans hc
    · by_cases hm : m = n
      · exact hm ▸ hread.symm.trans hr
      · have hempty := congrArg Multiset.ofList hpeers
        exact absurd (hmesh n m hm) (not_reaches_of_eq_zero hempty)
  | readFetch _ _ _ _ hr =>
    refine hnode.begin hq.get?_eq_none (c := ⟨n, key, .read, d.peers n, 0⟩) ⟨?_, ?_, fun m hm => ?_⟩
    · rw [setNode_self, (CacheNode.alike_read (s.nodes n) key).value]
      exact hread.symm.trans hr
    · exact fun _ _ _ ha => absurd ha (Multiset.notMem_zero _)
    · refine .inl (hmesh n m ?_)
      intro heq
      subst heq
      rw [setNode_self, (CacheNode.alike_read (s.nodes m) key).value] at hm
      exact hm (hread.symm.trans hr)

omit [DecidableEq Name] [DecidableEq Val] in
theorem write_done (h : Serial d s) {u : Cluster Node Name Task Key Val} {n : Node}
    {value : Option Val} (hnodes : u.nodes = s.nodes) (hcalls : ∀ task, u.calls.get? task = none)
    (hstray : u.stray = s.stray) (hhist : u.history = s.history)
    (hpending : ∀ task c, s.calls.get? task = some c → c.key = key)
    (hothers : ∀ m, m ≠ n → (s.nodes m).value? key = none) (hv : value ≠ none)
    (hev : (s.nodes n).store.evicts key = false) (hacc : (s.nodes n).store.Accepts key)
    (hbind : (s.nodes n).Rebinds key value) :
    Serial d (u.invalidated d n key (.write value)) := by
  obtain ⟨hok, hx⟩ :=
    CacheNode.writeInvalidated_of_accepts (s.nodes n) key (d.nodeId n) value hev hacc hbind
  have hdone : u.invalidated d n key (.write value) =
      (u.setNode n ((s.nodes n).writeInvalidated (d.nodeId n) key value).2).reply
        (.written n key value) := by
    simp only [Cluster.invalidated, hnodes, hok]
  rw [hdone]
  refine h.complete (r := .written n key value) (v := value) hx hcalls hpending hothers ?_ hstray
    (by rw [reply_history, setNode_history, hhist]) (fun _ => rfl) h.coherent ?_ fun _ => by simp
  · rw [reply_nodes, Cluster.setNode, hnodes]
    rfl
  · rintro _ ⟨⟩
    exact ⟨rfl, hv⟩

omit [DecidableEq Name] [DecidableEq Val] in
theorem delete_done (h : Serial d s) {u : Cluster Node Name Task Key Val} {n : Node}
    (hnodes : u.nodes = s.nodes) (hcalls : ∀ task, u.calls.get? task = none)
    (hstray : u.stray = s.stray) (hhist : u.history = s.history)
    (hpending : ∀ task c, s.calls.get? task = some c → c.key = key)
    (hothers : ∀ m, m ≠ n → (s.nodes m).value? key = none) :
    Serial d (u.invalidated d n key .delete) := by
  have hdone : u.invalidated d n key .delete =
      (u.setNode n ((s.nodes n).deleteInvalidated key)).reply (.deleted n key) := by
    rw [Cluster.invalidated, hnodes]
  rw [hdone]
  refine h.complete (r := .deleted n key) (v := none)
    (CacheNode.changes_deleteInvalidated (s.nodes n) key) hcalls hpending hothers ?_ hstray
    (by rw [reply_history, setNode_history, hhist]) (fun _ => rfl) h.coherent
    (fun _ hw => by cases hw) fun hn => absurd rfl hn
  rw [reply_nodes, Cluster.setNode, hnodes]
  rfl

theorem write_step (h : Serial d s) (hsole : (s.copies key).Sole) (hmesh : d.FullMesh) {n : Node}
    {task : Task} {value : Option Val} (hi : InTurn d s (.write n task key value))
    (hk : Covers d s (.write n task key value)) (ht : Transition d s (.write n task key value) t) :
    Serial d t := by
  obtain ⟨hq, hv, hev⟩ := hi
  have hcalls := hq.get?_eq_none
  have hpending (task' : Task) (c : Call Node Name Key Val) (hc : s.calls.get? task' = some c) :
      c.key = key := by
    cases (hcalls task').symm.trans hc
  cases ht with
  | writeOwned _ _ _ _ howns =>
    refine h.complete (r := .written n key value) (v := value)
      (CacheNode.changes_write (s.nodes n) key value howns) hcalls hpending (fun m hm => ?_) rfl rfl
      rfl (fun _ => rfl) h.coherent ?_ fun _ => by simp
    · by_contra hn
      exact hm ((hsole n howns).1 (h.holds_iff.mpr hn))
    · rintro _ ⟨⟩
      exact ⟨rfl, hv⟩
  | writeAlone _ _ _ _ howns htargets =>
    have halike := CacheNode.alike_write (s.nodes n) key value howns
    have hnode := h.setNode halike
    refine hnode.write_done rfl hcalls rfl rfl hpending (fun m hm => ?_) hv ?_ ?_ ?_
    · rw [setNode_of_ne _ _ hm]
      by_contra hn
      exact (hk howns).1.unheld hmesh htargets hm (h.holds_iff.mpr hn)
    · rw [setNode_self]
      exact hev howns htargets
    · rw [setNode_self]
      exact (hk howns).2.2 htargets
    · rw [setNode_self]
      intro hp
      rw [halike.value]
      exact (hk howns).2.1 (halike.policy ▸ hp)
  | writeAsk _ _ _ _ _ howns =>
    have halike := CacheNode.alike_write (s.nodes n) key value howns
    have hvalue (m : Node) := (alike_setNode halike m).value key
    refine (h.setNode halike).begin hcalls ⟨hv, fun hp => ?_, fun m hm hn => ?_⟩
    · rw [hvalue]
      rw [setNode_self] at hp
      exact (hk howns).2.1 (halike.policy ▸ hp)
    · rw [hvalue] at hn
      exact (hk howns).1.targets hmesh hm (h.holds_iff.mpr hn)

theorem delete_step (h : Serial d s) (hmesh : d.FullMesh) {n : Node} {task : Task}
    (hq : s.Quiet) (hk : s.KnowsHolders d n key) (ht : Transition d s (.delete n task key) t) :
    Serial d t := by
  have hcalls := hq.get?_eq_none
  cases ht with
  | deleteAlone _ _ _ htargets =>
    refine h.delete_done rfl hcalls rfl rfl (fun task' c hc => ?_) fun m hm => ?_
    · cases (hcalls task').symm.trans hc
    · by_contra hn
      exact hk.unheld hmesh htargets hm (h.holds_iff.mpr hn)
  | deleteAsk =>
    refine h.begin hcalls fun m hm hn => ?_
    exact hk.targets hmesh hm (h.holds_iff.mpr hn)

omit [DecidableEq Val] in
theorem fetch_step (h : Serial d s) {task : Task} {c : Call Node Name Key Val} {name : Name}
    {q : Node} (hc : s.calls.get? task = some c) (hgoal : c.goal = .read)
    (hq : d.route name = some q) :
    Serial d ((s.setNode q ((s.nodes q).handleFetchRequest (d.nodeId q) c.key
      (d.nodeId c.node)).2).setCall task
      { c with
        sent := c.sent.erase name
        answers := ((s.nodes q).handleFetchRequest (d.nodeId q) c.key (d.nodeId c.node)).1 ::ₘ
          c.answers }) := by
  have halike := CacheNode.alike_handleFetchRequest (s.nodes q) c.key (d.nodeId q) (d.nodeId c.node)
  have hanswer := CacheNode.handleFetchRequest_answer (s.nodes q) c.key (d.nodeId q) (h.valid q)
    (d.nodeId c.node)
  generalize (s.nodes q).handleFetchRequest (d.nodeId q) c.key (d.nodeId c.node) = r at *
  have hnode := h.setNode halike
  have hvalue (m : Node) := (alike_setNode halike m).value
  have hp := (pending_read hgoal).mp (h.pending task c hc)
  refine h.proceed (c := c) hc rfl rfl rfl rfl rfl hnode.valid (fun n j => .inl (hvalue n j)) ?_
  refine (pending_read (by exact hgoal)).mpr
    ⟨(hvalue _ _).trans hp.missing, fun value state nodeId ha => ?_, fun m hm => ?_⟩
  · cases Multiset.mem_cons.mp ha with
    | inl hnew =>
      cases hl : (s.nodes q).value? c.key with
      | none =>
        rw [hl] at hanswer
        cases hnew.trans hanswer
      | some v =>
        rw [hl] at hanswer
        obtain ⟨state', ha'⟩ := hanswer
        cases hnew.trans ha'
        exact h.agree q c.key value hl
    | inr hold => exact hp.answered value state nodeId hold
  · have hold : (s.nodes m).value? c.key ≠ none := fun hn => hm ((hvalue m c.key).trans hn)
    by_cases hmq : m = q
    · -- the node that answers has the key, and its answer brings the value
      subst hmq
      obtain ⟨v, hl⟩ := Option.ne_none_iff_exists'.mp hold
      rw [hl] at hanswer
      obtain ⟨state, ha⟩ := hanswer
      refine .inr ⟨r.1, Multiset.mem_cons_self _ _, ?_⟩
      obtain ⟨w, hw⟩ := Option.ne_none_iff_exists'.mp (h.agree m c.key v hl).2
      rw [ha, hw]
      rfl
    · cases hp.covered m hold with
      | inl hreach =>
        obtain ⟨p, hps, hroute⟩ := hreach
        refine .inl ⟨p, ?_, hroute⟩
        refine (Multiset.mem_erase_of_ne ?_).mpr hps
        intro heq
        subst heq
        exact hmq (Option.some.inj (hroute.symm.trans hq))
      | inr hcarried =>
        obtain ⟨a, ha, hcarries⟩ := hcarried
        exact .inr ⟨a, Multiset.mem_cons_of_mem ha, hcarries⟩

omit [DecidableEq Val] in
theorem invalidation_step (h : Serial d s) {task : Task} {c : Call Node Name Key Val}
    {name : Name} {q : Node} {a : Answer Name Val} (hc : s.calls.get? task = some c)
    (hgoal : c.goal ≠ .read) (hq : d.route name = some q) :
    Serial d ((s.setNode q ((s.nodes q).handleInvalidation c.key)).setCall task
      { c with sent := c.sent.erase name, answers := a ::ₘ c.answers }) := by
  have hchange := CacheNode.changes_handleInvalidation (s.nodes q) c.key
  generalize (s.nodes q).handleInvalidation c.key = x at *
  have hvalue (m : Node) (j : Key) : ((s.setNode q x).nodes m).value? j =
      if m = q ∧ j = c.key then none else (s.nodes m).value? j := by
    by_cases hm : m = q
    · rw [hm, setNode_self, hchange.value]
      simp
    · rw [setNode_of_ne _ _ hm, if_neg fun hb => hm hb.1]
  have hleft (hp : PendingInvalidation d s c) : PendingInvalidation d
      ((s.setNode q x).setCall task
        { c with sent := c.sent.erase name, answers := a ::ₘ c.answers })
      { c with sent := c.sent.erase name, answers := a ::ₘ c.answers } := by
    intro m hm hn
    have hv := hvalue m c.key
    by_cases hmq : m = q
    · rw [if_pos ⟨hmq, rfl⟩] at hv
      exact absurd hv hn
    · rw [if_neg fun hb => hmq hb.1] at hv
      obtain ⟨p, hps, hroute⟩ := hp m hm (hv ▸ hn)
      refine ⟨p, (Multiset.mem_erase_of_ne ?_).mpr hps, hroute⟩
      intro heq
      subst heq
      exact hmq (Option.some.inj (hroute.symm.trans hq))
  have hp := h.pending task c hc
  refine h.proceed (c := c) hc rfl rfl rfl rfl rfl (fun m => ?_) (fun m j => ?_) ?_
  · exact valid_setNode h.valid (hchange.valid (h.valid q)) m
  · rw [setCall_nodes, hvalue]
    split
    · rename_i hb
      exact .inr ⟨rfl, hb.2, hgoal⟩
    · exact .inl rfl
  · cases hkind : c.goal with
    | read => exact absurd hkind hgoal
    | delete => exact (pending_delete rfl).mpr (hleft ((pending_delete hkind).mp hp))
    | write value =>
      rw [pending_write hkind] at hp
      refine (pending_write rfl).mpr ⟨hp.1, fun hpolicy => ?_, hleft hp.2.2⟩
      rw [setCall_nodes, hvalue]
      split
      · exact .inl rfl
      · refine hp.2.1 ?_
        rw [← hpolicy, setCall_nodes]
        by_cases hm : c.node = q
        · rw [hm, setNode_self, hchange.policy]
        · rw [setNode_of_ne _ _ hm]

omit [DecidableEq Val] in
theorem stray_step (h : Serial d s) {name : Name} {r : Request Name Key} {q : Node}
    (hr : (name, r) ∈ s.stray) :
    Serial d { s.setNode q ((s.nodes q).handleCoherenceMessage (d.nodeId q) r).2 with
      stray := s.stray.erase (name, r) } := by
  obtain ⟨key, requester, rfl⟩ := h.stray name r hr
  have hnode := h.setNode
    (CacheNode.alike_handleFetchRequest (s.nodes q) key (d.nodeId q) requester)
  exact hnode.alike (fun _ => .refl) rfl (Multiset.erase_le _ _) rfl

omit [DecidableEq Val] in
theorem found_step (h : Serial d s) {task : Task} {c : Call Node Name Key Val}
    {value : Option Val} {state : MESIState} {nodeId : Name} (hc : s.calls.get? task = some c)
    (hgoal : c.goal = .read) (ha : .found value state nodeId ∈ c.answers)
    (hev : (s.nodes c.node).store.evicts c.key = false) :
    Serial d (((s.endCall task).addStray c.sent (c.request d)).found d c.node c.key value
      nodeId) := by
  have hp := (pending_read hgoal).mp (h.pending task c hc)
  obtain ⟨hlast, hsome⟩ := hp.answered value state nodeId ha
  obtain ⟨v, rfl⟩ := Option.ne_none_iff_exists'.mp hsome
  have hend := (h.endRead hc hgoal).addStray c.key c.sent (d.nodeId c.node)
  rw [request_of_read hgoal]
  generalize hu : (s.endCall task).addStray c.sent (.fetch c.key (d.nodeId c.node)) = u at *
  have hnodes : u.nodes = s.nodes := by
    rw [← hu]
    rfl
  have hhist : u.history = s.history := by
    rw [← hu]
    rfl
  have hcalls (task' : Task) : u.calls.get? task' = none := by
    rw [← hu]
    exact h.get?_endCall hc task'
  have hcases := CacheNode.readFetched_cases (s.nodes c.node) c.key (d.nodeId c.node) v
    (some nodeId) hev
  simp only [Cluster.found, hnodes]
  cases hcases with
  | inl hraised =>
    rw [hraised.1]
    refine hend.setNode ?_
    rw [hnodes]
    exact hraised.2
  | inr hok =>
    rw [hok.1]
    refine Serial.reply_value ?_ (hlast.trans (by rw [setNode_history, hhist]))
    cases hok.2 with
    | inl halike =>
      refine hend.setNode ?_
      rwa [hnodes]
    | inr hchange =>
      refine hend.gain hcalls (v := some v) ?_ (by rwa [hhist]) (by simp)
      rwa [hnodes]

omit [DecidableEq Node] in
theorem settle_step (h : Serial d s) {task : Task} {c : Call Node Name Key Val}
    {a : Answer Name Val} (hc : s.calls.get? task = some c) (ha : a ∈ c.answers)
    (hkind : c.goal = .read → ∀ value state nodeId, a ≠ .found value state nodeId) :
    Serial d (s.settle task { c with answers := c.answers.erase a }) := by
  have hpend := h.pending task c hc
  have hleft (hgoal : c.goal = .read) :
      PendingRead d s { c with answers := c.answers.erase a } := by
    have hp := (pending_read hgoal).mp hpend
    refine ⟨hp.missing, fun value state nodeId hb => ?_, fun m hm => ?_⟩
    · exact hp.answered value state nodeId (Multiset.mem_of_mem_erase hb)
    · refine (hp.covered m hm).imp_right ?_
      intro hx
      obtain ⟨b, hb, hcarries⟩ := hx
      refine ⟨b, (Multiset.mem_erase_of_ne ?_).mpr hb, hcarries⟩
      intro heq
      subst heq
      cases b with
      | found value state nodeId => exact hkind hgoal value state nodeId rfl
      | ok => cases hcarries
      | notFound => cases hcarries
  unfold Cluster.settle
  split
  · rename_i hdone
    obtain ⟨hgoal, hsent, hanswers⟩ := hdone
    have hnone (m : Node) : (s.nodes m).value? c.key = none := by
      by_contra hm
      cases (hleft hgoal).covered m hm with
      | inl hreach => exact not_reaches_of_eq_zero hsent hreach
      | inr hcarried =>
        obtain ⟨b, hb, _⟩ := hcarried
        rw [hanswers] at hb
        exact Multiset.notMem_zero b hb
    refine (h.endRead hc hgoal).reply_value
      (h.lastWritten_eq_none (fun task' c' hc' => ?_) hnone).symm
    have hsame := h.call_unique hc hc'
    subst hsame
    exact hgoal
  · refine h.proceed (c := c) hc rfl rfl rfl rfl rfl h.valid (fun _ _ => .inl rfl) ?_
    refine Pending.alike (s := s) ?_ (fun _ => .refl) fun _ => rfl
    by_cases hgoal : c.goal = .read
    · exact (pending_read (by exact hgoal)).mpr (hleft hgoal)
    · cases hkind : c.goal with
      | read => exact absurd hkind hgoal
      | write value => exact (pending_write rfl).mpr ((pending_write hkind).mp hpend)
      | delete => exact (pending_delete rfl).mpr ((pending_delete hkind).mp hpend)

omit [DecidableEq Val] in
theorem resume_step (h : Serial d s) {task : Task} {c : Call Node Name Key Val}
    (hi : InTurn d s (.resume task)) (hk : Covers d s (.resume task))
    (hc : s.calls.get? task = some c) (hgoal : c.goal ≠ .read) (hdone : c.Done) :
    Serial d ((s.endCall task).invalidated d c.node c.key c.goal) := by
  have hp := h.pending task c hc
  have hcalls := h.get?_endCall hc
  have hpending (task' : Task) (c' : Call Node Name Key Val) (hc' : s.calls.get? task' = some c') :
      c'.key = c.key := by
    rw [h.call_unique hc hc']
  have hothers (hp : PendingInvalidation d s c) (m : Node) (hm : m ≠ c.node) :
      (s.nodes m).value? c.key = none := by
    by_contra hn
    exact not_reaches_of_eq_zero hdone.1 (hp m hm hn)
  cases hkind : c.goal with
  | read => exact absurd hkind hgoal
  | write value =>
    rw [pending_write hkind] at hp
    have hwrite : c.goal.isWrite = true := by
      rw [hkind]
      rfl
    exact h.write_done rfl hcalls rfl rfl hpending (hothers hp.2.2) hp.1 (hi c hc hwrite)
      (hk c hc hwrite) hp.2.1
  | delete =>
    rw [pending_delete hkind] at hp
    exact h.delete_done rfl hcalls rfl rfl hpending (hothers hp)

theorem step (h : Serial d s) (hsole : ∀ key, (s.copies key).Sole) (hmesh : d.FullMesh)
    (hi : InTurn d s a) (hk : Covers d s a) (ht : Transition d s a t) : Serial d t := by
  cases a with
  | read n task key => exact h.read_step hmesh hi ht
  | write n task key value => exact h.write_step (hsole key) hmesh hi hk ht
  | delete n task key => exact h.delete_step hmesh hi hk ht
  | handle task name =>
    cases ht with
    | handle _ _ c q hc hname hq =>
      by_cases hgoal : c.goal = .read
      · rw [request_of_read hgoal]
        exact h.fetch_step hc hgoal hq
      · rw [request_of_ne hgoal]
        exact h.invalidation_step hc hgoal hq
  | handleStray name r =>
    cases ht with
    | handleStray _ _ q hr hq => exact h.stray_step hr
  | drop name r =>
    cases ht with
    | drop => exact h.alike (fun _ => .refl) rfl (Multiset.erase_le _ _) rfl
  | receive task a =>
    cases ht with
    | found _ c value state nodeId hc hgoal ha => exact h.found_step hc hgoal ha (hi c hc hgoal)
    | receive _ _ c hc ha hkind => exact h.settle_step hc ha hkind
  | timeOut task name => exact hi.elim
  | timeOutAnswer task a => exact hi.elim
  | resume task =>
    cases ht with
    | resume _ c hc hgoal hdone => exact h.resume_step hi hk hc hgoal hdone
  | update n key value version => exact hi.elim

end Serial

theorem serial_of_covers (hmesh : d.FullMesh)
    (hs : (cluster d).Reach (fun s a => InTurn d s a ∧ Covers d s a) s) :
    Serial d s ∧ ∀ key, (s.copies key).Sole := by
  refine hs.invariant (I := fun s => Serial d s ∧ ∀ key, (s.copies key).Sole)
    ⟨serial_init, sole_init⟩ ?_
  rintro s a t - ⟨h, hsole⟩ ⟨hi, hk⟩ hstep
  have ht := step_cases hstep
  exact ⟨h.step hsole hmesh hi hk ht, (sole_step_iff hsole ht).mpr (h.takesAlone hmesh hi hk)⟩

end DistSync.Cache
