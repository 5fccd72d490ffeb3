import Mathlib.Data.Fin.VecNotation
import Mathlib.Data.Finset.Sort
import DistSync.Locking.Refinement

/-! Circular waits and the wait-for graph. The graph is adjusted at every command by
what happens to that command's own client, so a wait stays recorded as long as no
command frees or grants a lock past somebody who is still queued. -/
namespace DistSync.Locking
variable {Client Resource Request : Type}
  [DecidableEq Client] [DecidableEq Resource]
variable {m : LockManager Client Resource Request} {T : Table Client Resource Request} {now : Rat}

def LockManager.Waits (m : LockManager Client Resource Request) (a b : Client) : Prop :=
  ∃ e ∈ m.locks.entries, (∃ w ∈ e.2.waiters, w.clientId = a) ∧ b ∈ e.2.holderIds

instance (m : LockManager Client Resource Request) (a b : Client) : Decidable (m.Waits a b) :=
  inferInstanceAs (Decidable (∃ e ∈ m.locks.entries, _))

/-- Clients `c 0, …, c k`, each of which waits for the next and the last for the first. -/
def LockManager.CircularWait (m : LockManager Client Resource Request) : Prop :=
  ∃ (k : Nat) (c : Fin (k + 1) → Client), ∀ i, m.Waits (c i) (c (i + 1))

def LockManager.InCircularWait (m : LockManager Client Resource Request) (client : Client) :
    Prop :=
  ∃ (k : Nat) (c : Fin (k + 1) → Client), (∃ i, c i = client) ∧ ∀ i, m.Waits (c i) (c (i + 1))

def LockManager.Recorded (m : LockManager Client Resource Request) : Prop :=
  ∀ a b, m.Waits a b → b ∈ m.wfg.edges a

/-- A lock is granted only to a client that is queued nowhere and that all who wait for
this lock are recorded to wait for. -/
def GrantsUnawaited (m : LockManager Client Resource Request)
    (req : LockRequest Client Resource Request) : Prop :=
  (∀ l ∈ m.locks.get? req.resourceId, l.canAcquire req.lockType) →
    (∀ e ∈ m.locks.entries, ∀ w ∈ e.2.waiters, w.clientId ≠ req.clientId) ∧
    ∀ w ∈ m.waitersOf req.resourceId, req.clientId ∈ m.wfg.edges w.clientId

/-- A lock is released only by a client that stays queued nowhere and holds no other lock
that is waited for; it passes only to clients that stay queued nowhere either and that
all who still wait for it are recorded to wait for. -/
structure ReleasesUnawaited (m : LockManager Client Resource Request) (client : Client)
    (r : Resource) (l : Lock Client Resource Request) : Prop where
  queued : ∀ e ∈ m.locks.entries,
    ∀ w ∈ (if e.1 = r then stillWaiting l client else e.2.waiters),
      w.clientId ≠ client ∧ w.clientId ∉ clients (successors l client)
  holds : ∀ e ∈ m.locks.entries, e.1 ≠ r → client ∈ e.2.holderIds → e.2.waiters = []
  passes : ∀ w ∈ stillWaiting l client, ∀ v ∈ successors l client,
    v.clientId ≠ client ∧ v.clientId ∈ m.wfg.edges w.clientId

def KeepsWaits (m : LockManager Client Resource Request) :
    LockCommand Client Resource Request → Prop
  | .acquire req => GrantsUnawaited m req
  | .release client r => ∀ l ∈ m.locks.get? r, ReleasesUnawaited m client r l
  | .cancel _ _ _ => True
  | .abort client r => ∀ l ∈ m.locks.get? r, ReleasesUnawaited m client r l

instance (m : LockManager Client Resource Request) (req : LockRequest Client Resource Request) :
    Decidable (GrantsUnawaited m req) := inferInstanceAs (Decidable (_ → _ ∧ _))

instance (m : LockManager Client Resource Request) (client : Client) (r : Resource)
    (l : Lock Client Resource Request) : Decidable (ReleasesUnawaited m client r l) :=
  decidable_of_iff
    ((∀ e ∈ m.locks.entries, ∀ w ∈ (if e.1 = r then stillWaiting l client else e.2.waiters),
        w.clientId ≠ client ∧ w.clientId ∉ clients (successors l client)) ∧
      (∀ e ∈ m.locks.entries, e.1 ≠ r → client ∈ e.2.holderIds → e.2.waiters = []) ∧
      ∀ w ∈ stillWaiting l client, ∀ v ∈ successors l client,
        v.clientId ≠ client ∧ v.clientId ∈ m.wfg.edges w.clientId)
    ⟨fun h => ⟨h.1, h.2.1, h.2.2⟩, fun h => ⟨h.queued, h.holds, h.passes⟩⟩

instance (m : LockManager Client Resource Request) (c : LockCommand Client Resource Request) :
    Decidable (KeepsWaits m c) :=
  match c with
  | .acquire _ => inferInstanceAs (Decidable (GrantsUnawaited _ _))
  | .release _ _ => inferInstanceAs (Decidable (∀ l ∈ _, _))
  | .cancel _ _ _ => .isTrue trivial
  | .abort _ _ => inferInstanceAs (Decidable (∀ l ∈ _, _))

omit [DecidableEq Client] [DecidableEq Resource] in
theorem LockManager.CircularWait.transGen (h : m.CircularWait) :
    ∃ a, Relation.TransGen m.Waits a a := by
  obtain ⟨k, c, hc⟩ := h
  have hnext (n : Nat) : Fin.ofNat (k + 1) (n + 1) = Fin.ofNat (k + 1) n + 1 := by
    ext
    simp [Fin.val_add]
  have hwalk (n : Nat) : Relation.TransGen m.Waits (c 0) (c (Fin.ofNat (k + 1) (n + 1))) := by
    induction n with
    | zero =>
      rw [hnext 0]
      exact .single (hc 0)
    | succ n ih =>
      rw [hnext (n + 1)]
      exact ih.tail (hc _)
  have hloop : Fin.ofNat (k + 1) (k + 1) = 0 := by
    ext
    simp
  exact ⟨c 0, hloop ▸ hwalk k⟩

omit [DecidableEq Resource] in
theorem LockManager.Recorded.detectCycle (h : m.Recorded) (hc : m.CircularWait)
    {order : Client → List Client} (ho : m.wfg.Enumerates order) :
    ∃ cycle, m.wfg.detectCycle order = some cycle ∧ m.wfg.IsCycle cycle := by
  obtain ⟨a, ha⟩ := hc.transGen
  exact WaitForGraph.detectCycle_of_transGen ho (Relation.TransGen.mono h a a ha)

section Step
variable (h : Refines m T)
include h

omit [DecidableEq Client] in
theorem Refines.mem_entries (e : Resource × Lock Client Resource Request)
    (he : e ∈ m.locks.entries) : ∃ k, T e.1 = some k ∧ Shows e.2 k :=
  h.lock (Dict.get?_eq_some.mpr he)

theorem Refines.waits_iff (a b : Client) : m.Waits a b ↔
    ∃ r k, T r = some k ∧ a ∈ clients k.waiters ∧ b ∈ k.holders := by
  constructor
  · intro hx
    obtain ⟨e, he, ha, hb⟩ := hx
    obtain ⟨k, hk, hs⟩ := h.mem_entries e he
    exact ⟨e.1, k, hk, hs.waiters ▸ mem_clients.mpr ha, hs.holders ▸ hb⟩
  · intro hx
    obtain ⟨r, k, hk, ha, hb⟩ := hx
    obtain ⟨l, hl, hs⟩ := h.held r k hk
    exact ⟨(r, l), Dict.get?_eq_some.mp hl, hs.waiters ▸ mem_clients.mp ha, hs.holders ▸ hb⟩

theorem Refines.recorded_iff : m.Recorded ↔ ∀ r k, T r = some k →
    ∀ a ∈ clients k.waiters, ∀ b ∈ k.holders, b ∈ m.wfg.edges a := by
  constructor
  · exact fun hm r k hk a ha b hb => hm a b ((h.waits_iff a b).mpr ⟨r, k, hk, ha, hb⟩)
  · intro hm a b hab
    obtain ⟨r, k, hk, ha, hb⟩ := (h.waits_iff a b).mp hab
    exact hm r k hk a ha b hb

theorem Refines.grantsUnawaited_iff (req : LockRequest Client Resource Request) :
    GrantsUnawaited m req ↔ (Held.Admits (T req.resourceId) req.lockType →
      (∀ r k, T r = some k → req.clientId ∉ clients k.waiters) ∧
      ∀ k, T req.resourceId = some k → ∀ a ∈ clients k.waiters, req.clientId ∈ m.wfg.edges a) := by
  have hcan : (∀ l ∈ m.locks.get? req.resourceId, l.canAcquire req.lockType) ↔
      Held.Admits (T req.resourceId) req.lockType := by
    cases hT : T req.resourceId with
    | none => simp [h.free _ hT, Held.Admits]
    | some k =>
      obtain ⟨l, hl, hs⟩ := h.held _ k hT
      simp [hl, hs.canAcquire]
  have hqueued : (∀ e ∈ m.locks.entries, ∀ w ∈ e.2.waiters, w.clientId ≠ req.clientId) ↔
      ∀ r k, T r = some k → req.clientId ∉ clients k.waiters := by
    constructor
    · intro hq r k hk hm
      obtain ⟨l, hl, hs⟩ := h.held r k hk
      obtain ⟨w, hw, hc⟩ := mem_clients.mp hm
      exact hq (r, l) (Dict.get?_eq_some.mp hl) w (hs.waiters ▸ hw) hc
    · intro hq e he w hw hc
      obtain ⟨k, hk, hs⟩ := h.mem_entries e he
      exact hq e.1 k hk (mem_clients.mpr ⟨w, hs.waiters ▸ hw, hc⟩)
  have hwaiters : (∀ w ∈ m.waitersOf req.resourceId, req.clientId ∈ m.wfg.edges w.clientId) ↔
      ∀ k, T req.resourceId = some k → ∀ a ∈ clients k.waiters, req.clientId ∈ m.wfg.edges a := by
    cases hT : T req.resourceId with
    | none => simp [LockManager.waitersOf, h.free _ hT]
    | some k =>
      obtain ⟨l, hl, hs⟩ := h.held _ k hT
      simp [waitersOf_eq hl, hs.waiters]
  unfold GrantsUnawaited
  rw [hcan, hqueued, hwaiters]

omit h [DecidableEq Client] in
theorem forall_update {r : Resource} {v : Option (Held Client Resource Request r)}
    {P : ∀ r, Held Client Resource Request r → Prop} :
    (∀ r' k, Function.update T r v r' = some k → P r' k) ↔
      (∀ k, v = some k → P r k) ∧ ∀ r', r' ≠ r → ∀ k, T r' = some k → P r' k := by
  constructor
  · intro hP
    refine ⟨fun k hk => hP r k (by rwa [Function.update_self]), fun r' hr' k hk => hP r' k ?_⟩
    rwa [Function.update_of_ne hr']
  · rintro ⟨hself, hother⟩ r' k hk
    by_cases he : r' = r
    · subst he
      rw [Function.update_self] at hk
      exact hself k hk
    · rw [Function.update_of_ne he] at hk
      exact hother r' he k hk

variable [DecidableEq Request]

theorem Refines.recorded_grant (hm : m.Recorded) (req : LockRequest Client Resource Request)
    (hc : Held.Admits (T req.resourceId) req.lockType) :
    (m.applyAcquire now req).Recorded ↔
      (∀ r k, T r = some k → req.clientId ∉ clients k.waiters) ∧
      ∀ k, T req.resourceId = some k → ∀ a ∈ clients k.waiters, req.clientId ∈ m.wfg.edges a := by
  have hrec := h.recorded_iff.mp hm
  have hedges (a b : Client) : b ∈ (m.applyAcquire now req).wfg.edges a ↔
      a ≠ req.clientId ∧ b ∈ m.wfg.edges a := by rw [h.acquire_edges, if_pos hc]
  rw [(h.grant now req hc).recorded_iff, forall_update]
  simp only [hedges, Option.some.injEq, forall_eq', Held.grant]
  constructor
  · intro hx
    obtain ⟨hself, hother⟩ := hx
    refine ⟨fun r k hk hq => ?_, fun k hk a ha => ?_⟩
    · by_cases hr : r = req.resourceId
      · subst hr
        rw [hk] at hself
        exact (hself _ hq _ (Finset.mem_insert_self _ _)).1 rfl
      · obtain ⟨b, hb⟩ := k.held
        exact (hother r hr k hk _ hq b hb).1 rfl
    · rw [hk] at hself
      exact (hself a ha _ (Finset.mem_insert_self _ _)).2
  · intro hx
    obtain ⟨hqueued, hawaited⟩ := hx
    refine ⟨fun a ha b hb => ?_, fun r hr k hk a ha b hb => ?_⟩
    · cases hk : T req.resourceId with
      | none =>
        rw [hk] at ha
        obtain ⟨w, hw, -⟩ := mem_clients.mp ha
        cases hw
      | some k =>
        rw [hk] at ha hb
        refine ⟨fun he => hqueued _ k hk (he ▸ ha), ?_⟩
        cases Finset.mem_insert.mp hb with
        | inl hb => exact hb ▸ hawaited k hk a ha
        | inr hb => exact hrec _ k hk a ha b hb
    · exact ⟨fun he => hqueued r k hk (he ▸ ha), hrec r k hk a ha b hb⟩

theorem Refines.recorded_queue (hm : m.Recorded) (req : LockRequest Client Resource Request)
    (hc : ¬ Held.Admits (T req.resourceId) req.lockType) :
    (m.applyAcquire now req).Recorded := by
  have hrec := h.recorded_iff.mp hm
  cases hT : T req.resourceId with
  | none => exact absurd (fun l hl => by rw [hT] at hl; cases hl) hc
  | some k =>
    have hedges (a b : Client) : b ∈ (m.applyAcquire now req).wfg.edges a ↔
        req.clientId = a ∧ b ∈ k.holders ∨ b ∈ m.wfg.edges a := by
      rw [h.acquire_edges, if_neg hc, hT]
      simp
    rw [(h.queue now req hT hc).recorded_iff, forall_update]
    simp only [hedges, Option.some.injEq, forall_eq', Held.queue]
    refine ⟨fun a ha b hb => ?_, fun r hr k' hk' a ha b hb => .inr (hrec r k' hk' a ha b hb)⟩
    obtain ⟨w, hw, rfl⟩ := mem_clients.mp ha
    cases List.mem_append.mp hw with
    | inl hw => exact .inr (hrec _ k hT _ (mem_clients.mpr ⟨w, hw, rfl⟩) b hb)
    | inr hw => exact .inl ⟨by rw [List.mem_singleton.mp hw], hb⟩

theorem Refines.recorded_acquire (hm : m.Recorded) (req : LockRequest Client Resource Request) :
    (m.applyAcquire now req).Recorded ↔ GrantsUnawaited m req := by
  rw [h.grantsUnawaited_iff]
  by_cases hc : Held.Admits (T req.resourceId) req.lockType
  · rw [h.recorded_grant hm req hc]
    exact ⟨fun hu _ => hu, fun hu => hu hc⟩
  · exact ⟨fun _ ha => absurd ha hc, fun _ => h.recorded_queue hm req hc⟩

omit [DecidableEq Request] in
theorem Refines.releasesUnawaited_iff {r : Resource} {l : Lock Client Resource Request}
    {k : Held Client Resource Request r} (hk : T r = some k) (hs : Shows l k) (client : Client) :
    ReleasesUnawaited m client r l ↔
      (∀ a ∈ clients (k.releaseRest client), a ≠ client ∧ a ∉ clients (k.releaseGrants client)) ∧
      (∀ r', r' ≠ r → ∀ k', T r' = some k' → ∀ a ∈ clients k'.waiters,
        a ≠ client ∧ a ∉ clients (k.releaseGrants client)) ∧
      (∀ r', r' ≠ r → ∀ k', T r' = some k' → client ∈ k'.holders → k'.waiters = []) ∧
      ∀ a ∈ clients (k.releaseRest client), ∀ b ∈ clients (k.releaseGrants client),
        b ≠ client ∧ b ∈ m.wfg.edges a := by
  have hrest := hs.stillWaiting_eq client
  have hgrants := hs.successors_eq client
  constructor
  · intro hu
    refine ⟨fun a ha => ?_, fun r' hr' k' hk' a ha => ?_, fun r' hr' k' hk' hh => ?_,
      fun a ha b hb => ?_⟩
    · obtain ⟨l', hl', -⟩ := h.held r k hk
      obtain ⟨w, hw, rfl⟩ := mem_clients.mp ha
      have hq := hu.queued (r, l') (Dict.get?_eq_some.mp hl') w
      rw [if_pos rfl, hrest, hgrants] at hq
      exact hq hw
    · obtain ⟨l', hl', hs'⟩ := h.held r' k' hk'
      obtain ⟨w, hw, rfl⟩ := mem_clients.mp ha
      have hq := hu.queued (r', l') (Dict.get?_eq_some.mp hl') w
      rw [if_neg hr', hgrants] at hq
      exact hq (hs'.waiters ▸ hw)
    · obtain ⟨l', hl', hs'⟩ := h.held r' k' hk'
      exact hs'.waiters ▸ hu.holds (r', l') (Dict.get?_eq_some.mp hl') hr' (hs'.holders ▸ hh)
    · obtain ⟨w, hw, rfl⟩ := mem_clients.mp ha
      obtain ⟨v, hv, rfl⟩ := mem_clients.mp hb
      exact hu.passes w (hrest ▸ hw) v (hgrants ▸ hv)
  · intro hx
    obtain ⟨hself, hother, hholds, hpasses⟩ := hx
    refine ⟨fun e he w hw => ?_, fun e he hr hh => ?_, fun w hw v hv => ?_⟩
    · rw [hgrants]
      by_cases hr : e.1 = r
      · rw [if_pos hr, hrest] at hw
        exact hself _ (mem_clients.mpr ⟨w, hw, rfl⟩)
      · rw [if_neg hr] at hw
        obtain ⟨k', hk', hs'⟩ := h.mem_entries e he
        exact hother e.1 hr k' hk' _ (mem_clients.mpr ⟨w, hs'.waiters ▸ hw, rfl⟩)
    · obtain ⟨k', hk', hs'⟩ := h.mem_entries e he
      exact hs'.waiters.trans (hholds e.1 hr k' hk' (hs'.holders ▸ hh))
    · rw [hrest] at hw
      rw [hgrants] at hv
      exact hpasses _ (mem_clients.mpr ⟨w, hw, rfl⟩) _ (mem_clients.mpr ⟨v, hv, rfl⟩)

theorem Refines.recorded_release (hm : m.Recorded) {r : Resource}
    {l : Lock Client Resource Request} (hl : m.locks.get? r = some l) (client : Client) :
    (m.applyRelease now client r).Recorded ↔ ReleasesUnawaited m client r l := by
  obtain ⟨k, hk, hs⟩ := h.lock hl
  obtain ⟨hrefines, hedges, -⟩ := h.release now client hk
  have hrec := h.recorded_iff.mp hm
  rw [h.releasesUnawaited_iff hk hs, hrefines.recorded_iff, forall_update]
  simp only [hedges]
  constructor
  · intro hx
    obtain ⟨hself, hother⟩ := hx
    have hrest (a : Client) (ha : a ∈ clients (k.releaseRest client)) :
        ∃ k', k.release client = some k' ∧ a ∈ clients k'.waiters ∧
          k'.holders = k.holders.erase client ∪ clients (k.releaseGrants client) := by
      cases hr : k.release client with
      | none =>
        rw [Held.release_none hr] at ha
        obtain ⟨w, hw, -⟩ := mem_clients.mp ha
        cases hw
      | some k' =>
        obtain ⟨hw, hh⟩ := Held.release_some hr
        exact ⟨k', rfl, hw ▸ ha, hh⟩
    refine ⟨fun a ha => ?_, fun r' hr' k' hk' a ha => ?_, fun r' hr' k' hk' hh => ?_,
      fun a ha b hb => ?_⟩
    · obtain ⟨k', hr, ha', -⟩ := hrest a ha
      obtain ⟨b, hb⟩ := k'.held
      have hab := hself k' hr a ha' b hb
      exact ⟨hab.2.1, hab.1⟩
    · obtain ⟨b, hb⟩ := k'.held
      have hab := hother r' hr' k' hk' a ha b hb
      exact ⟨hab.2.1, hab.1⟩
    · by_contra hne
      obtain ⟨w, hw⟩ := List.exists_mem_of_ne_nil _ hne
      exact (hother r' hr' k' hk' _ (mem_clients.mpr ⟨w, hw, rfl⟩) client hh).2.2.1 rfl
    · obtain ⟨k', hr, ha', hh⟩ := hrest a ha
      exact (hself k' hr a ha' b (hh ▸ Finset.mem_union_right _ hb)).2.2
  · intro hx
    obtain ⟨hself, hother, hholds, hpasses⟩ := hx
    refine ⟨fun k' hr a ha b hb => ?_, fun r' hr' k' hk' a ha b hb => ?_⟩
    · obtain ⟨hw, hh⟩ := Held.release_some hr
      rw [hw] at ha
      rw [hh] at hb
      refine ⟨(hself a ha).2, (hself a ha).1, ?_⟩
      cases Finset.mem_union.mp hb with
      | inl hb =>
        obtain ⟨hne, hb⟩ := Finset.mem_erase.mp hb
        obtain ⟨w, hw, rfl⟩ := mem_clients.mp ha
        exact ⟨hne, hrec r k hk _ (mem_clients.mpr ⟨w, k.releaseRest_subset client hw, rfl⟩) b hb⟩
      | inr hb => exact hpasses a ha b hb
    · refine ⟨(hother r' hr' k' hk' a ha).2, (hother r' hr' k' hk' a ha).1, fun he => ?_,
        hrec r' k' hk' a ha b hb⟩
      obtain ⟨w, hw, -⟩ := mem_clients.mp ha
      rw [hholds r' hr' k' hk' (he ▸ hb)] at hw
      cases hw

theorem Refines.recorded_cancel (hm : m.Recorded) (q : Request) (r : Resource) :
    (m.applyCancel q r).Recorded := by
  have hrec := h.recorded_iff.mp hm
  rw [(h.cancel q).recorded_iff, forall_update]
  have hedges (a : Client) : (m.applyCancel q r).wfg.edges a = m.wfg.edges a := by
    simp [LockManager.applyCancel]
  simp only [hedges]
  refine ⟨fun k' hk' a ha b hb => ?_, fun r' _ k' hk' => hrec r' k' hk'⟩
  obtain ⟨k, hk, rfl⟩ := Option.map_eq_some_iff.mp hk'
  obtain ⟨w, hw, rfl⟩ := mem_clients.mp ha
  exact hrec r k hk _ (mem_clients.mpr ⟨w, (List.mem_filter.mp hw).1, rfl⟩) b hb

/-- Recorded waits stay recorded under a command just if it passes no lock by a waiter. -/
theorem Refines.recorded_apply (hm : m.Recorded) (c : LockCommand Client Resource Request) :
    (m.applyCommand now c).Recorded ↔ KeepsWaits m c := by
  have hrelease (client : Client) (r : Resource) : (m.applyRelease now client r).Recorded ↔
      ∀ l ∈ m.locks.get? r, ReleasesUnawaited m client r l := by
    cases hT : T r with
    | none => simp [h.release_free client hT, h.free r hT, hm]
    | some k =>
      obtain ⟨l, hl, -⟩ := h.held r k hT
      simp [h.recorded_release hm hl, hl]
  cases c with
  | acquire req => exact h.recorded_acquire hm req
  | release client r => exact hrelease client r
  | cancel q client r => exact iff_of_true (h.recorded_cancel hm q r) trivial
  | abort client r => exact hrelease client r

end Step

variable [DecidableEq Request]

theorem recorded_reach
    (h : (manager Client Resource Request).Reach (fun m c => KeepsWaits m c.2) m) : m.Recorded := by
  refine h.invariant (I := fun m => m.Recorded) ?_ fun s c t hr hm hc hs => ?_
  · rintro a b ⟨e, he, -⟩
    cases he
  · cases hs
    obtain ⟨T, hT⟩ := exists_refines hr
    exact (hT.recorded_apply hm c.2).mpr hc

def byNumber (g : WaitForGraph Nat) (a : Nat) : List Nat := (g.edges a).sort (· ≤ ·)

theorem enumerates_byNumber (g : WaitForGraph Nat) : g.Enumerates (byNumber g) where
  mem a b := by simp [byNumber]
  nodup a := Finset.sort_nodup _ _

def exclusive (request client resource : Nat) : LockCommand Nat Nat Nat :=
  .acquire
    { requestId := request, clientId := client, resourceId := resource, lockType := .exclusive }

/-- Clients 0 and 1 hold a resource each and ask for the other's. -/
def crossed : List (Rat × LockCommand Nat Nat Nat) :=
  [(0, exclusive 0 0 0), (1, exclusive 1 1 1), (2, exclusive 2 0 1), (3, exclusive 3 1 0)]

/-- Client 2 holds resource 1 and queues for resource 0 behind client 1. Client 0 releases
resource 0 to client 1, which then asks for resource 1. -/
def handedOver : List (Rat × LockCommand Nat Nat Nat) :=
  [(0, exclusive 0 2 1), (1, exclusive 1 0 0), (2, exclusive 2 1 0), (3, exclusive 3 2 0),
   (4, .release 0 0), (5, exclusive 4 1 1)]

end DistSync.Locking
