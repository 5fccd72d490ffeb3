import DistSync.Cache.Transition
import DistSync.Cache.Values

/-! Operations one after the other. Between two of them no request is under way, and each node
has for a key either nothing or what was written last; while one is going on, those that it
has not reached yet may still have what it is about to replace. -/
namespace DistSync.Cache
variable {Node Name Task Key Val : Type} [DecidableEq Node] [DecidableEq Name]
  [DecidableEq Task] [DecidableEq Key] [DecidableEq Val]

section History

/-- The value of the last write to the key, unless the key was deleted after it. -/
def lastWritten (key : Key) : List (Reply Node Key Val) → Option Val
  | [] => none
  | .value _ _ _ :: h => lastWritten key h
  | .written _ k v :: h => if key = k then v else lastWritten key h
  | .deleted _ k :: h => if key = k then none else lastWritten key h

/-- Every read has returned what was written last before it. -/
def Coherent : List (Reply Node Key Val) → Prop
  | [] => True
  | .value _ key v :: h => v = lastWritten key h ∧ Coherent h
  | .written _ _ _ :: h => Coherent h
  | .deleted _ _ :: h => Coherent h

instance decidableCoherent : (h : List (Reply Node Key Val)) → Decidable (Coherent h)
  | [] => .isTrue trivial
  | .value _ _ _ :: h =>
    have := decidableCoherent h
    inferInstanceAs (Decidable (_ ∧ _))
  | .written _ _ _ :: h => decidableCoherent h
  | .deleted _ _ :: h => decidableCoherent h

end History

def Reaches (d : Deployment Node Name) (names : Multiset Name) (m : Node) : Prop :=
  ∃ name ∈ names, d.route name = some m

instance (d : Deployment Node Name) (names : Multiset Name) (m : Node) :
    Decidable (Reaches d names m) :=
  Multiset.decidableExistsMultiset

section Invariant
variable (d : Deployment Node Name) (s : Cluster Node Name Task Key Val)

/-- What a read that waits for answers relies on: its node has no value, the values it is told
are what was written last, and it has asked or been answered by all who have the key. -/
structure PendingRead (c : Call Node Name Key Val) : Prop where
  missing : (s.nodes c.node).value? c.key = none
  answered : ∀ value state nodeId, .found value state nodeId ∈ c.answers →
    value = lastWritten c.key s.history ∧ value ≠ none
  covered : ∀ m, (s.nodes m).value? c.key ≠ none → Reaches d c.sent m ∨ ∃ a ∈ c.answers, a.carries

/-- A write or a DELETE that waits for answers has yet to reach all others who have the key. -/
def PendingInvalidation (c : Call Node Name Key Val) : Prop :=
  ∀ m, m ≠ c.node → (s.nodes m).value? c.key ≠ none → Reaches d c.sent m

def Pending (c : Call Node Name Key Val) : Prop :=
  match c.goal with
  | .read => PendingRead d s c
  | .write value =>
    value ≠ none ∧ (s.nodes c.node).Rebinds c.key value ∧ PendingInvalidation d s c
  | .delete => PendingInvalidation d s c

structure Serial : Prop where
  valid : ∀ n, (s.nodes n).Valid
  agree : ∀ n key v, (s.nodes n).value? key = some v → v = lastWritten key s.history ∧ v ≠ none
  kept : ∀ key, lastWritten key s.history ≠ none →
    (∃ n, (s.nodes n).value? key ≠ none) ∨
      ∃ task c, s.calls.get? task = some c ∧ c.key = key ∧ c.goal ≠ .read
  single : ∀ task c task' c', s.calls.get? task = some c → s.calls.get? task' = some c' →
    task = task'
  pending : ∀ task c, s.calls.get? task = some c → Pending d s c
  stray : ∀ name r, (name, r) ∈ s.stray → ∃ key requester, r = .fetch key requester
  coherent : Coherent s.history

end Invariant

variable {d : Deployment Node Name} {s t : Cluster Node Name Task Key Val} {key : Key}

theorem serial_init :
    Serial d (cluster d : System (Cluster Node Name Task Key Val) _).init where
  valid n key line hl := by cases (Store.line?_new key (d.policy n) (d.capacity n)).symm.trans hl
  agree n key v hv := by
    obtain ⟨line, hl, _⟩ := Option.map_eq_some_iff.mp hv
    cases (Store.line?_new key (d.policy n) (d.capacity n)).symm.trans hl
  kept key h := absurd rfl h
  single task c _ _ h := by cases h
  pending task c h := by cases h
  stray name r h := absurd h (Multiset.notMem_zero _)
  coherent := trivial

omit [DecidableEq Node] [DecidableEq Name] [DecidableEq Task] [DecidableEq Val] in
theorem pending_read {c : Call Node Name Key Val} (h : c.goal = .read) :
    Pending d s c ↔ PendingRead d s c := by
  unfold Pending
  rw [h]

omit [DecidableEq Node] [DecidableEq Name] [DecidableEq Task] [DecidableEq Val] in
theorem pending_write {c : Call Node Name Key Val} {value : Option Val}
    (h : c.goal = .write value) : Pending d s c ↔
      value ≠ none ∧ (s.nodes c.node).Rebinds c.key value ∧ PendingInvalidation d s c := by
  unfold Pending
  rw [h]

omit [DecidableEq Node] [DecidableEq Name] [DecidableEq Task] [DecidableEq Val] in
theorem pending_delete {c : Call Node Name Key Val} (h : c.goal = .delete) :
    Pending d s c ↔ PendingInvalidation d s c := by
  unfold Pending
  rw [h]

omit [DecidableEq Node] [DecidableEq Name] [DecidableEq Task] [DecidableEq Val] in
theorem Pending.alike {c : Call Node Name Key Val} (h : Pending d s c)
    (hnodes : ∀ n, (t.nodes n).Alike (s.nodes n))
    (hlast : ∀ key, lastWritten key t.history = lastWritten key s.history) : Pending d t c := by
  cases hgoal : c.goal with
  | read =>
    rw [pending_read hgoal] at h ⊢
    refine ⟨?_, fun value state nodeId ha => ?_, fun m hm => h.covered m ?_⟩
    · rw [(hnodes c.node).value]
      exact h.missing
    · rw [hlast]
      exact h.answered value state nodeId ha
    · rwa [(hnodes m).value] at hm
  | write value =>
    rw [pending_write hgoal] at h ⊢
    refine ⟨h.1, fun hp => ?_, fun m hne hm => h.2.2 m hne ?_⟩
    · rw [(hnodes c.node).value]
      exact h.2.1 ((hnodes c.node).policy ▸ hp)
    · rwa [(hnodes m).value] at hm
  | delete =>
    rw [pending_delete hgoal] at h ⊢
    refine fun m hne hm => h m hne ?_
    rwa [(hnodes m).value] at hm

omit [DecidableEq Name] [DecidableEq Task] [DecidableEq Val] in
theorem alike_setNode {n : Node} {x : CacheNode Name Key Val} (hx : x.Alike (s.nodes n))
    (m : Node) : ((s.setNode n x).nodes m).Alike (s.nodes m) := by
  by_cases hm : m = n
  · subst hm
    rwa [setNode_self]
  · rw [setNode_of_ne s x hm]
    exact .refl

omit [DecidableEq Name] [DecidableEq Task] [DecidableEq Val] in
theorem valid_setNode {n : Node} {x : CacheNode Name Key Val} (h : ∀ m, (s.nodes m).Valid)
    (hx : x.Valid) (m : Node) : ((s.setNode n x).nodes m).Valid := by
  by_cases hm : m = n
  · subst hm
    rwa [setNode_self]
  · rw [setNode_of_ne s x hm]
    exact h m

namespace Serial
omit [DecidableEq Name] [DecidableEq Val]

omit [DecidableEq Node] in
theorem alike (h : Serial d s) (hnodes : ∀ n, (t.nodes n).Alike (s.nodes n))
    (hcalls : t.calls = s.calls) (hstray : t.stray ≤ s.stray) (hhist : t.history = s.history) :
    Serial d t where
  valid n := (hnodes n).valid (h.valid n)
  agree n key v hv := by
    rw [(hnodes n).value] at hv
    rw [hhist]
    exact h.agree n key v hv
  kept key hk := by
    rw [hhist] at hk
    rw [hcalls]
    refine (h.kept key hk).imp_left ?_
    intro hx
    obtain ⟨n, hn⟩ := hx
    exact ⟨n, by rwa [(hnodes n).value]⟩
  single := by
    rw [hcalls]
    exact h.single
  pending task c hc := by
    rw [hcalls] at hc
    exact (h.pending task c hc).alike hnodes fun _ => by rw [hhist]
  stray name r hr := h.stray name r (Multiset.mem_of_le hstray hr)
  coherent := hhist ▸ h.coherent

theorem setNode (h : Serial d s) {n : Node} {x : CacheNode Name Key Val}
    (hx : x.Alike (s.nodes n)) : Serial d (s.setNode n x) :=
  h.alike (alike_setNode hx) rfl le_rfl rfl

omit [DecidableEq Node] in
theorem reply_value (h : Serial d s) {n : Node} {v : Option Val}
    (hv : v = lastWritten key s.history) : Serial d (s.reply (.value n key v)) where
  valid := h.valid
  agree := h.agree
  kept := h.kept
  single := h.single
  pending task c hc := (h.pending task c hc).alike (fun _ => .refl) fun _ => rfl
  stray := h.stray
  coherent := ⟨hv, h.coherent⟩

omit [DecidableEq Node] in
theorem begin (h : Serial d s) (hquiet : ∀ task, s.calls.get? task = none) {task : Task}
    {c : Call Node Name Key Val} (hp : Pending d s c) : Serial d (s.setCall task c) where
  valid := h.valid
  agree := h.agree
  kept key hk := by
    refine .inl ((h.kept key hk).resolve_right ?_)
    intro hx
    obtain ⟨task', c', hc, _⟩ := hx
    cases (hquiet task').symm.trans hc
  single task₁ c₁ task₂ c₂ h₁ h₂ := by
    rw [setCall_calls, Dict.get?_set] at h₁ h₂
    split at h₁
    · rename_i he₁
      split at h₂
      · rename_i he₂
        exact he₁.symm.trans he₂
      · cases (hquiet task₂).symm.trans h₂
    · cases (hquiet task₁).symm.trans h₁
  pending task' c' hc := by
    rw [setCall_calls, Dict.get?_set] at hc
    split at hc
    · cases hc
      exact hp.alike (fun _ => .refl) fun _ => rfl
    · cases (hquiet task').symm.trans hc
  stray := h.stray
  coherent := h.coherent

omit [DecidableEq Node] in
theorem call_unique (h : Serial d s) {task task' : Task} {c c' : Call Node Name Key Val}
    (hc : s.calls.get? task = some c) (hc' : s.calls.get? task' = some c') : c' = c := by
  have htask := h.single task c task' c' hc hc'
  subst htask
  exact Option.some.inj (hc'.symm.trans hc)

omit [DecidableEq Node] in
theorem proceed (h : Serial d s) {task : Task} {c c' : Call Node Name Key Val}
    (hc : s.calls.get? task = some c) (hcalls : t.calls = s.calls.set task c')
    (hkey : c'.key = c.key) (hgoal : c'.goal = c.goal) (hstray : t.stray = s.stray)
    (hhist : t.history = s.history) (hvalid : ∀ n, (t.nodes n).Valid)
    (hvalue : ∀ n j, (t.nodes n).value? j = (s.nodes n).value? j ∨
      (t.nodes n).value? j = none ∧ j = c.key ∧ c.goal ≠ .read)
    (hp : Pending d t c') : Serial d t where
  valid := hvalid
  agree n j v hv := by
    rw [hhist]
    cases hvalue n j with
    | inl hsame => exact h.agree n j v (hsame ▸ hv)
    | inr hlost => cases hlost.1.symm.trans hv
  kept j hj := by
    rw [hhist] at hj
    rw [hcalls]
    have hcall (hk : c.key = j) (hg : c.goal ≠ .read) :
        ∃ task' c₁, (s.calls.set task c').get? task' = some c₁ ∧ c₁.key = j ∧ c₁.goal ≠ .read :=
      ⟨task, c', Dict.get?_set_self .., hkey.trans hk, hgoal ▸ hg⟩
    cases h.kept j hj with
    | inl hold =>
      obtain ⟨n, hn⟩ := hold
      cases hvalue n j with
      | inl hsame => exact .inl ⟨n, hsame ▸ hn⟩
      | inr hlost => exact .inr (hcall hlost.2.1.symm hlost.2.2)
    | inr hpend =>
      obtain ⟨task₁, c₁, hc₁, hk, hg⟩ := hpend
      have hsame := h.call_unique hc hc₁
      subst hsame
      exact .inr (hcall hk hg)
  single task₁ c₁ task₂ c₂ h₁ h₂ := by
    have honly (task' : Task) (c₁ : Call Node Name Key Val)
        (h₁ : t.calls.get? task' = some c₁) : task = task' := by
      rw [hcalls, Dict.get?_set] at h₁
      split at h₁
      · assumption
      · exact h.single task c task' c₁ hc h₁
    exact (honly task₁ c₁ h₁).symm.trans (honly task₂ c₂ h₂)
  pending task₁ c₁ h₁ := by
    rw [hcalls, Dict.get?_set] at h₁
    split at h₁
    · cases h₁
      exact hp
    · rename_i hne
      exact absurd (h.single task c task₁ c₁ hc h₁) hne
  stray := hstray ▸ h.stray
  coherent := hhist ▸ h.coherent

omit [DecidableEq Node] in
theorem get?_endCall (h : Serial d s) {task : Task} {c : Call Node Name Key Val}
    (hc : s.calls.get? task = some c) (task' : Task) :
    (s.endCall task).calls.get? task' = none := by
  rw [endCall_calls, Dict.get?_erase]
  split
  · rfl
  · rename_i hne
    cases hc' : s.calls.get? task' with
    | none => rfl
    | some c' => exact absurd (h.single task c task' c' hc hc').symm hne

omit [DecidableEq Node] in
theorem endRead (h : Serial d s) {task : Task} {c : Call Node Name Key Val}
    (hc : s.calls.get? task = some c) (hgoal : c.goal = .read) : Serial d (s.endCall task) where
  valid := h.valid
  agree := h.agree
  kept key hk := by
    refine .inl ((h.kept key hk).resolve_right ?_)
    intro hx
    obtain ⟨task', c', hc', _, hg⟩ := hx
    have hsame := h.call_unique hc hc'
    subst hsame
    exact hg hgoal
  single task' c' _ _ hc' := by cases (h.get?_endCall hc task').symm.trans hc'
  pending task' c' hc' := by cases (h.get?_endCall hc task').symm.trans hc'
  stray := h.stray
  coherent := h.coherent

/-- A write or a DELETE completes: whatever others had of the key is gone, and `v` is what is
known of it from now on. -/
theorem complete (h : Serial d s) {n : Node} {x : CacheNode Name Key Val} {o : Option (Option Val)}
    {r : Reply Node Key Val} {v : Option Val} (hx : x.Changes (s.nodes n) key o)
    (hcalls : ∀ task, t.calls.get? task = none)
    (hpending : ∀ task c, s.calls.get? task = some c → c.key = key)
    (hothers : ∀ m, m ≠ n → (s.nodes m).value? key = none)
    (hnodes : t.nodes = (s.setNode n x).nodes) (hstray : t.stray = s.stray)
    (hhist : t.history = r :: s.history)
    (hr : ∀ j, lastWritten j (r :: s.history) = if j = key then v else lastWritten j s.history)
    (hcoherent : Coherent (r :: s.history)) (ho : ∀ w, o = some w → w = v ∧ w ≠ none)
    (hv : v ≠ none → o ≠ none) : Serial d t := by
  have hvalue (m : Node) (j : Key) : (t.nodes m).value? j =
      if j = key then (if m = n then o else none) else (s.nodes m).value? j := by
    rw [hnodes]
    by_cases hm : m = n
    · subst hm
      rw [setNode_self, hx.value, if_pos rfl]
    · rw [setNode_of_ne s x hm, if_neg hm]
      split
      · rename_i hj
        rw [hj, hothers m hm]
      · rfl
  refine
    { valid := fun m => ?_
      agree := fun m j w hw => ?_
      kept := fun j hj => .inl ?_
      single := fun task c _ _ hc => by cases (hcalls task).symm.trans hc
      pending := fun task c hc => by cases (hcalls task).symm.trans hc
      stray := hstray ▸ h.stray
      coherent := hhist ▸ hcoherent }
  · rw [hnodes]
    exact valid_setNode h.valid (hx.valid (h.valid n)) m
  · rw [hvalue] at hw
    rw [hhist, hr]
    split at hw
    · rename_i hj
      rw [if_pos hj]
      split at hw
      · exact ho w hw
      · cases hw
    · rename_i hj
      rw [if_neg hj]
      exact h.agree m j w hw
  · rw [hhist, hr] at hj
    by_cases hk : j = key
    · rw [if_pos hk] at hj
      exact ⟨n, by rw [hvalue, if_pos hk, if_pos rfl]; exact hv hj⟩
    · rw [if_neg hk] at hj
      cases h.kept j hj with
      | inl hold =>
        obtain ⟨m, hm⟩ := hold
        exact ⟨m, by rwa [hvalue, if_neg hk]⟩
      | inr hpend =>
        obtain ⟨task, c, hc, hkey, _⟩ := hpend
        exact absurd (hkey.symm.trans (hpending task c hc)) hk

theorem gain (h : Serial d s) (hcalls : ∀ task, s.calls.get? task = none) {n : Node}
    {x : CacheNode Name Key Val} {v : Option Val} (hx : x.Changes (s.nodes n) key (some v))
    (hlast : v = lastWritten key s.history) (hv : v ≠ none) : Serial d (s.setNode n x) := by
  refine
    { valid := valid_setNode h.valid (hx.valid (h.valid n))
      agree := fun m j w hw => ?_
      kept := fun j hj => .inl ?_
      single := h.single
      pending := fun task c hc => by cases (hcalls task).symm.trans hc
      stray := h.stray
      coherent := h.coherent }
  · by_cases hm : m = n
    · subst hm
      rw [setNode_self, hx.value] at hw
      split at hw
      · rename_i hj
        cases hw
        exact ⟨hj ▸ hlast, hv⟩
      · exact h.agree m j w hw
    · rw [setNode_of_ne s x hm] at hw
      exact h.agree m j w hw
  · have hold := (h.kept j hj).resolve_right (by
      intro hx
      obtain ⟨task, c, hc, _⟩ := hx
      cases (hcalls task).symm.trans hc)
    obtain ⟨m, hm⟩ := hold
    refine ⟨m, ?_⟩
    by_cases hmn : m = n
    · subst hmn
      rw [setNode_self, hx.value]
      split
      · simp
      · exact hm
    · rwa [setNode_of_ne s x hmn]

omit [DecidableEq Node] in
theorem addStray (h : Serial d s) (key : Key) (names : Multiset Name) (requester : Name) :
    Serial d (s.addStray names (.fetch key requester)) where
  valid := h.valid
  agree := h.agree
  kept := h.kept
  single := h.single
  pending task c hc := (h.pending task c hc).alike (fun _ => .refl) fun _ => rfl
  stray name r hr := by
    cases Multiset.mem_add.mp hr with
    | inl hold => exact h.stray name r hold
    | inr hnew =>
      obtain ⟨_, _, he⟩ := Multiset.mem_map.mp hnew
      exact ⟨key, requester, (congrArg Prod.snd he).symm⟩
  coherent := h.coherent

end Serial
end DistSync.Cache
