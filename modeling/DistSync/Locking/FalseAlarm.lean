import DistSync.Locking.Deadlock

/-! Edges without a wait. Grants and releases drop the edges of the client they are
about, but a cancelled request leaves its edges behind, and the deadlock detector may
then find a cycle and abort a client that waits for nobody. -/
namespace DistSync.Locking
variable {Client Resource Request : Type}
  [DecidableEq Client] [DecidableEq Resource] [DecidableEq Request]
variable {m : LockManager Client Resource Request} {T : Table Client Resource Request} {now : Rat}

def LockManager.EdgesReal (m : LockManager Client Resource Request) : Prop :=
  ∀ a b, b ∈ m.wfg.edges a → m.Waits a b

/-- Edges are waits, and whom the deadlock detector aborts is in a circular wait. -/
structure LockManager.NoFalseAlarm (m : LockManager Client Resource Request) : Prop where
  edges : m.EdgesReal
  victim : ∀ order cycle, m.wfg.Enumerates order → m.wfg.detectCycle order = some cycle →
    ∃ client, WaitForGraph.getVictim cycle = some client ∧ m.InCircularWait client

/-- If a request of the queue of `r` is cancelled, its client waits through other requests
for all whom the graph has it wait for. -/
def LeavesNoEdge (m : LockManager Client Resource Request) (q : Request) (r : Resource) : Prop :=
  ∀ w ∈ m.waitersOf r, w.requestId = q → ∀ b ∈ m.wfg.edges w.clientId,
    ∃ e ∈ m.locks.entries, b ∈ e.2.holderIds ∧
      ∃ v ∈ e.2.waiters, v.clientId = w.clientId ∧ (e.1 = r → v.requestId ≠ q)

def CancelsCleanly (m : LockManager Client Resource Request) :
    LockCommand Client Resource Request → Prop
  | .acquire _ => True
  | .release _ _ => True
  | .cancel q _ r => LeavesNoEdge m q r
  | .abort _ _ => True

instance (m : LockManager Client Resource Request) (c : LockCommand Client Resource Request) :
    Decidable (CancelsCleanly m c) :=
  match c with
  | .acquire _ => .isTrue trivial
  | .release _ _ => .isTrue trivial
  | .cancel _ _ _ => inferInstanceAs (Decidable (∀ w ∈ _, _ → ∀ b ∈ _, ∃ e ∈ _, _ ∧ ∃ v ∈ _, _))
  | .abort _ _ => .isTrue trivial

omit [DecidableEq Resource] [DecidableEq Request] in
theorem LockManager.EdgesReal.inCircularWait (h : m.EdgesReal) {cycle : List Client}
    (hc : m.wfg.IsCycle cycle) {client : Client} (hm : client ∈ cycle) :
    m.InCircularWait client := by
  obtain ⟨k, hk⟩ : ∃ k, cycle.length = k + 1 :=
    Nat.exists_eq_succ_of_ne_zero (List.length_pos_iff.mpr hc.ne_nil).ne'
  obtain ⟨i, hi, hcl⟩ := List.getElem_of_mem hm
  refine ⟨k, fun i => cycle[i.val], ⟨⟨i, by omega⟩, hcl⟩, fun i => h _ _ ?_⟩
  by_cases hlast : i.val = k
  · have hi : i = Fin.last k := Fin.ext hlast
    have hclosed := hc.closed (cycle.getLast hc.ne_nil) (List.getLast?_eq_some_getLast hc.ne_nil)
      (cycle.head hc.ne_nil) (List.head?_eq_some_head hc.ne_nil)
    rw [List.getLast_eq_getElem, List.head_eq_getElem] at hclosed
    simpa [hi, hk] using hclosed
  · have hval : (i + 1).val = i.val + 1 := Fin.val_add_one_of_lt (by
      rw [Fin.lt_def, Fin.val_last]
      omega)
    have hnext := List.isChain_iff_getElem.mp hc.chain i.val (by omega)
    simpa only [hval] using hnext

omit [DecidableEq Resource] [DecidableEq Request] in
theorem LockManager.EdgesReal.noFalseAlarm (h : m.EdgesReal) : m.NoFalseAlarm where
  edges := h
  victim order cycle ho hd := by
    have hc := WaitForGraph.isCycle_of_detectCycle ho hd
    refine ⟨cycle.getLast hc.ne_nil, List.getLast?_eq_some_getLast hc.ne_nil, ?_⟩
    exact h.inCircularWait hc (List.getLast_mem hc.ne_nil)

section Step
variable (h : Refines m T)
include h

omit [DecidableEq Request] in
theorem Refines.edgesReal_iff : m.EdgesReal ↔ ∀ a b, b ∈ m.wfg.edges a →
    ∃ r k, T r = some k ∧ a ∈ clients k.waiters ∧ b ∈ k.holders :=
  forall₂_congr fun a b => imp_congr_right fun _ => h.waits_iff a b

theorem Refines.edgesReal_acquire (hm : m.EdgesReal) (req : LockRequest Client Resource Request) :
    (m.applyAcquire now req).EdgesReal := by
  have hreal := h.edgesReal_iff.mp hm
  rw [(h.acquire now req).edgesReal_iff]
  intro a b hb
  rw [h.acquire_edges] at hb
  -- whoever waited for a holder still does: an applied request takes nobody from the table
  have hold (hb : b ∈ m.wfg.edges a) : ∃ r k, Function.update T req.resourceId
      (some (Held.acquire (T req.resourceId) req rfl)) r = some k ∧ a ∈ clients k.waiters ∧
        b ∈ k.holders := by
    obtain ⟨r, k, hk, ha, hbk⟩ := hreal a b hb
    by_cases hr : r = req.resourceId
    · subst hr
      refine ⟨req.resourceId, _, Function.update_self .., ?_⟩
      rw [hk]
      unfold Held.acquire
      split
      · exact ⟨ha, Finset.mem_insert_of_mem hbk⟩
      · obtain ⟨w, hw, rfl⟩ := mem_clients.mp ha
        exact ⟨mem_clients.mpr ⟨w, List.mem_append_left _ hw, rfl⟩, hbk⟩
    · exact ⟨r, k, by rwa [Function.update_of_ne hr], ha, hbk⟩
  split at hb
  · exact hold hb.2
  · rename_i hc
    cases hb with
    | inl hnew =>
      obtain ⟨rfl, k, hk, hb⟩ := hnew
      refine ⟨req.resourceId, k.queue req rfl, ?_, ?_, hb⟩
      · unfold Held.acquire
        rw [Function.update_self, if_neg hc, hk]
      · exact mem_clients.mpr ⟨req, List.mem_append_right _ (List.mem_singleton_self _), rfl⟩
    | inr hb => exact hold hb

theorem Refines.edgesReal_release (hm : m.EdgesReal) (client : Client) (r : Resource) :
    (m.applyRelease now client r).EdgesReal := by
  cases hT : T r with
  | none =>
    rw [h.release_free client hT]
    exact hm
  | some k =>
    have hreal := h.edgesReal_iff.mp hm
    obtain ⟨href, hedges, -⟩ := h.release now client hT
    rw [href.edgesReal_iff]
    intro a b hb
    obtain ⟨-, -, hne, hb⟩ := (hedges a b).mp hb
    obtain ⟨r', k', hk', ha, hbk⟩ := hreal a b hb
    by_cases hr : r' = r
    · subst hr
      rw [hT] at hk'
      cases hk'
      -- `b` keeps the lock, so it is not passed on
      have hstill : (k'.holders.erase client).Nonempty := ⟨b, Finset.mem_erase.mpr ⟨hne, hbk⟩⟩
      refine ⟨r', { k' with holders := k'.holders.erase client, held := hstill }, ?_, ha, ?_⟩
      · rw [Function.update_self, Held.release, dif_pos hstill]
      · exact Finset.mem_erase.mpr ⟨hne, hbk⟩
    · exact ⟨r', k', by rwa [Function.update_of_ne hr], ha, hbk⟩

theorem Refines.waits_cancel (q : Request) (r : Resource) (a b : Client) :
    (m.applyCancel q r).Waits a b ↔ ∃ e ∈ m.locks.entries, b ∈ e.2.holderIds ∧
      ∃ v ∈ e.2.waiters, v.clientId = a ∧ (e.1 = r → v.requestId ≠ q) := by
  rw [(h.cancel q).waits_iff]
  constructor
  · intro hx
    obtain ⟨r', k', hk', ha, hb⟩ := hx
    obtain ⟨v, hv, rfl⟩ := mem_clients.mp ha
    by_cases hr : r' = r
    · subst hr
      rw [Function.update_self] at hk'
      obtain ⟨k, hk, rfl⟩ := Option.map_eq_some_iff.mp hk'
      obtain ⟨l, hl, hs⟩ := h.held r' k hk
      obtain ⟨hv, hq⟩ := List.mem_filter.mp hv
      exact ⟨(r', l), Dict.get?_eq_some.mp hl, hs.holders ▸ hb, v, hs.waiters ▸ hv, rfl,
        fun _ => of_decide_eq_true hq⟩
    · rw [Function.update_of_ne hr] at hk'
      obtain ⟨l, hl, hs⟩ := h.held r' k' hk'
      exact ⟨(r', l), Dict.get?_eq_some.mp hl, hs.holders ▸ hb, v, hs.waiters ▸ hv, rfl,
        fun he => absurd he hr⟩
  · intro hx
    obtain ⟨e, he, hb, v, hv, rfl, hq⟩ := hx
    obtain ⟨k, hk, hs⟩ := h.mem_entries e he
    by_cases hr : e.1 = r
    · subst hr
      refine ⟨e.1, k.cancel q, by rw [Function.update_self, hk]; rfl, ?_, hs.holders ▸ hb⟩
      exact mem_clients.mpr ⟨v, List.mem_filter.mpr ⟨hs.waiters ▸ hv, decide_eq_true (hq rfl)⟩, rfl⟩
    · refine ⟨e.1, k, by rwa [Function.update_of_ne hr], ?_, hs.holders ▸ hb⟩
      exact mem_clients.mpr ⟨v, hs.waiters ▸ hv, rfl⟩

/-- Real edges stay real when a request is cancelled just if it leaves none behind. -/
theorem Refines.edgesReal_cancel (hm : m.EdgesReal) (q : Request) (r : Resource) :
    (m.applyCancel q r).EdgesReal ↔ LeavesNoEdge m q r := by
  have hedges (a : Client) : (m.applyCancel q r).wfg.edges a = m.wfg.edges a := by
    simp [LockManager.applyCancel]
  unfold LockManager.EdgesReal LeavesNoEdge
  simp only [hedges, h.waits_cancel]
  constructor
  · exact fun hreal w _ _ b hb => hreal w.clientId b hb
  · intro hleaves a b hb
    obtain ⟨e, he, ⟨w, hw, rfl⟩, hb'⟩ := hm a b hb
    by_cases hq : e.1 = r ∧ w.requestId = q
    · refine hleaves w ?_ hq.2 b hb
      have hl : m.locks.get? r = some e.2 := hq.1 ▸ Dict.get?_eq_some.mpr he
      rwa [waitersOf_eq hl]
    · exact ⟨e, he, hb', w, hw, rfl, fun hr hwq => hq ⟨hr, hwq⟩⟩

theorem Refines.edgesReal_apply (hm : m.EdgesReal) (c : LockCommand Client Resource Request) :
    (m.applyCommand now c).EdgesReal ↔ CancelsCleanly m c := by
  cases c with
  | acquire req => exact iff_of_true (h.edgesReal_acquire hm req) trivial
  | release client r => exact iff_of_true (h.edgesReal_release hm client r) trivial
  | cancel q client r => exact h.edgesReal_cancel hm q r
  | abort client r => exact iff_of_true (h.edgesReal_release hm client r) trivial

end Step

theorem edgesReal_reach
    (h : (manager Client Resource Request).Reach (fun m c => CancelsCleanly m c.2) m) :
    m.EdgesReal := by
  refine h.invariant (I := fun m => m.EdgesReal) (fun a b hb => by cases hb)
    fun s c t hr hm hc hs => ?_
  cases hs
  obtain ⟨T, hT⟩ := exists_refines hr
  exact (hT.edgesReal_apply hm c.2).mpr hc

/-- No false deadlock, in runs whose cancels leave no edge behind. -/
theorem noFalseAlarm_of_cancelsCleanly
    (h : (manager Client Resource Request).Reach (fun m c => CancelsCleanly m c.2) m) :
    m.NoFalseAlarm := (edgesReal_reach h).noFalseAlarm

/-- Client 1 queues twice for resource 0, gives one request up, and closes a circle. -/
def askedTwice : List (Rat × LockCommand Nat Nat Nat) :=
  [(0, exclusive 0 0 0), (1, exclusive 1 1 1), (2, exclusive 2 1 0), (3, exclusive 3 1 0),
   (4, .cancel 2 1 0), (5, exclusive 4 0 1)]

theorem noFalseAlarm_askedTwice : ∃ m, (manager Nat Nat Nat).runIf
    (fun m c => CancelsCleanly m c.2) (manager Nat Nat Nat).init askedTwice = some m ∧
    m.wfg.detectCycle (byNumber m.wfg) = some [1, 0] ∧ m.NoFalseAlarm := by
  have hrun : ((manager Nat Nat Nat).runIf (fun m c => CancelsCleanly m c.2)
      (manager Nat Nat Nat).init askedTwice).any
        (fun m => m.wfg.detectCycle (byNumber m.wfg) = some [1, 0]) = true := by
    decide +kernel
  obtain ⟨m, hm, hw⟩ := (Option.any_eq_true ..).mp hrun
  exact ⟨m, hm, of_decide_eq_true hw, noFalseAlarm_of_cancelsCleanly (System.Reach.init.runIf hm)⟩

/-- Client 1 gives up its only request for resource 0; then client 0, which holds it,
queues for what client 1 holds. -/
def gaveUp : List (Rat × LockCommand Nat Nat Nat) :=
  [(0, exclusive 0 0 0), (1, exclusive 1 1 1), (2, exclusive 2 1 0), (3, .cancel 2 1 0),
   (4, exclusive 3 0 1)]

theorem not_noFalseAlarm_gaveUp : ∃ m, (manager Nat Nat Nat).run
    (manager Nat Nat Nat).init gaveUp = some m ∧
    m.wfg.detectCycle (byNumber m.wfg) = some [1, 0] ∧ ¬ m.CircularWait ∧ ¬ m.NoFalseAlarm := by
  have hrun : ((manager Nat Nat Nat).run (manager Nat Nat Nat).init gaveUp).any
      (fun m => m.wfg.detectCycle (byNumber m.wfg) = some [1, 0] ∧ 0 ∈ m.wfg.edges 1 ∧
        ∀ e ∈ m.locks.entries, ∀ w ∈ e.2.waiters, w.clientId = 0 ∧ 0 ∉ e.2.holderIds) = true := by
    decide +kernel
  obtain ⟨m, hm, hw⟩ := (Option.any_eq_true ..).mp hrun
  obtain ⟨hcycle, hedge, hwaits⟩ := of_decide_eq_true hw
  have hzero (a b : Nat) (h : m.Waits a b) : a = 0 ∧ b ≠ 0 := by
    obtain ⟨e, he, ⟨w, hw, rfl⟩, hb⟩ := h
    obtain ⟨hc, hnot⟩ := hwaits e he w hw
    exact ⟨hc, fun h0 => hnot (h0 ▸ hb)⟩
  refine ⟨m, hm, hcycle, ?_, fun h => absurd (hzero 1 0 (h.edges 1 0 hedge)).1 (by decide)⟩
  intro hx
  obtain ⟨k, c, hc⟩ := hx
  exact (hzero _ _ (hc 0)).2 (hzero _ _ (hc (0 + 1))).1

end DistSync.Locking
