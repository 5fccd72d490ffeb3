import Mathlib.Algebra.Order.Ring.Rat
import Mathlib.Tactic.Linarith
import DistSync.Locking.Holdings
import DistSync.Locking.Deadlock

/-! Expiry. A lock has one clock for all its holders: a grant restarts it, and it keeps the timeout
of the request that it was made for. So a holder expires by its own timeout only as long as those
who share or succeed it asked for the same. -/
namespace DistSync.Locking
variable {Client Resource Request : Type}
  [DecidableEq Client] [DecidableEq Resource] [DecidableEq Request]
variable {m m' : LockManager Client Resource Request} {T : Table Client Resource Request}
  {now : Rat} {r : Resource} {c : Client} {l : Lock Client Resource Request}
  {gs : List (LockRequest Client Resource Request)}
  {es : List (LockEvent Client Resource Request)}

def LockEvent.termsTo (client : Client) (resource : Resource) :
    LockEvent Client Resource Request → Option (Rat × Rat)
  | .granted req now =>
    if req.clientId = client ∧ req.resourceId = resource then some (req.timeout, now) else none
  | .queued _ => none
  | .released _ _ => none
  | .cancelled _ _ => none

def lastTerms (h : List (LockEvent Client Resource Request)) (client : Client)
    (resource : Resource) : Option (Rat × Rat) :=
  h.findSome? (LockEvent.termsTo client resource)

/-- Whoever holds `r` expires when its own timeout has passed since it was granted. -/
def LockManager.OnTime (m : LockManager Client Resource Request) (r : Resource) : Prop :=
  ∀ l, m.locks.get? r = some l → ∀ c ∈ l.holderIds, ∀ timeout granted,
    lastTerms m.history c r = some (timeout, granted) → ∀ t, granted ≤ t →
      (l.isExpired t ↔ t - granted > timeout)

/-- Two timeouts that expire alike: both at once, if they are negative. -/
def Alike (a b : Rat) : Prop := a = b ∨ a < 0 ∧ b < 0

instance (a b : Rat) : Decidable (Alike a b) := inferInstanceAs (Decidable (_ ∨ _))

/-- Nobody joins or succeeds the holders of a lock with another timeout, and nobody joins them
later than the last grant, unless they have expired in spite of it. Of several requests of one
client that a release grants only the last counts. -/
def KeepsTerms (m : LockManager Client Resource Request) (now : Rat) :
    LockCommand Client Resource Request → Prop
  | .acquire req => ∀ l ∈ m.locks.get? req.resourceId, l.canAcquire req.lockType →
      Alike req.timeout l.timeout ∧ ∀ c ∈ l.holderIds, c ≠ req.clientId →
        ∀ terms ∈ lastTerms m.history c req.resourceId,
          now = l.acquiredAt ∨ now + l.timeout < terms.2
  | .release client r => ∀ l ∈ m.locks.get? r, ∀ w ∈ successors l client,
      w ∈ (successors l client).reverse.find? (fun v => v.clientId = w.clientId) →
        Alike w.timeout l.timeout
  | .cancel _ _ _ => True
  | .abort client r => ∀ l ∈ m.locks.get? r, ∀ w ∈ successors l client,
      w ∈ (successors l client).reverse.find? (fun v => v.clientId = w.clientId) →
        Alike w.timeout l.timeout

instance (m : LockManager Client Resource Request) (now : Rat)
    (c : LockCommand Client Resource Request) : Decidable (KeepsTerms m now c) :=
  match c with
  | .acquire _ => inferInstanceAs (Decidable (∀ l ∈ _, _ → _ ∧ ∀ c ∈ _, _ → ∀ terms ∈ _, _))
  | .release _ _ => inferInstanceAs (Decidable (∀ l ∈ _, ∀ w ∈ _, _ → _))
  | .cancel _ _ _ => .isTrue trivial
  | .abort _ _ => inferInstanceAs (Decidable (∀ l ∈ _, ∀ w ∈ _, _ → _))

/-- Two deadlines agree from a time on if they are the same or both lie before it. -/
theorem deadlines_agree {d g T : Rat} :
    (∀ t, g ≤ t → (t > d ↔ t > g + T)) ↔ d = g + T ∨ d < g ∧ T < 0 := by
  constructor
  · intro ha
    by_cases hd : d < g
    · have hg := (ha g le_rfl).mp hd
      exact .inr ⟨hd, by linarith⟩
    · have hdg : ¬ d > g + T := fun hgt => absurd ((ha d (not_lt.mp hd)).mpr hgt) (lt_irrefl d)
      by_cases hT : g + T < g
      · exact absurd ((ha g le_rfl).mpr hT) hd
      · have hgd := (ha (g + T) (not_lt.mp hT)).mp
        exact .inl (le_antisymm (not_lt.mp fun hlt => hdg hlt)
          (not_lt.mp fun hlt => absurd (hgd hlt) (lt_irrefl _)))
  · rintro (rfl | ⟨hd, hT⟩) t ht
    · exact Iff.rfl
    · exact iff_of_true (by linarith) (by linarith)

omit [DecidableEq Client] [DecidableEq Resource] [DecidableEq Request] in
theorem onTime_iff {g T : Rat} : (∀ t, g ≤ t → (l.isExpired t ↔ t - g > T)) ↔
    l.acquiredAt + l.timeout = g + T ∨ l.acquiredAt + l.timeout < g ∧ T < 0 := by
  rw [← deadlines_agree]
  refine forall₂_congr fun t _ => iff_congr ?_ ?_
  · exact lt_sub_iff_add_lt'
  · exact lt_sub_iff_add_lt'

omit [DecidableEq Client] [DecidableEq Resource] [DecidableEq Request] in
theorem onTime_granted {T : Rat} (hl : l.acquiredAt = now) :
    (∀ t, now ≤ t → (l.isExpired t ↔ t - now > T)) ↔ Alike T l.timeout := by
  rw [onTime_iff, hl, add_left_cancel_iff, add_lt_iff_neg_left, Alike, eq_comm, and_comm]

omit [DecidableEq Client] [DecidableEq Resource] [DecidableEq Request] in
/-- Who was on time stays so when the clock is restarted if this is in the same instant, or if it
is expired all the same. -/
theorem onTime_restarted {g T : Rat} {l' : Lock Client Resource Request}
    (hl : ∀ t, g ≤ t → (l.isExpired t ↔ t - g > T)) (ha : l.acquiredAt ≤ now)
    (hl' : l'.acquiredAt = now) (ht : l'.timeout = l.timeout) :
    (∀ t, g ≤ t → (l'.isExpired t ↔ t - g > T)) ↔ now = l.acquiredAt ∨ now + l.timeout < g := by
  rw [onTime_iff] at hl ⊢
  rw [hl', ht]
  constructor
  · rintro (he | ⟨he, hT⟩)
    · cases hl with
      | inl hl => exact .inl (by linarith)
      | inr hl => exact .inr (by linarith [hl.2])
    · exact .inr he
  · rintro (rfl | he)
    · exact hl
    · refine .inr ⟨he, ?_⟩
      cases hl with
      | inl hl => linarith
      | inr hl => exact hl.2

omit [DecidableEq Request] in
theorem lastTerms_cons (e : LockEvent Client Resource Request) :
    lastTerms (e :: es) c r = (e.termsTo c r).or (lastTerms es c r) := by
  unfold lastTerms
  rw [List.findSome?_cons]
  cases e.termsTo c r <;> rfl

omit [DecidableEq Request] in
theorem lastTerms_granted {req : LockRequest Client Resource Request} :
    lastTerms (.granted req now :: es) c r =
      if req.clientId = c ∧ req.resourceId = r then some (req.timeout, now)
      else lastTerms es c r := by
  rw [lastTerms_cons, LockEvent.termsTo]
  split <;> rfl

omit [DecidableEq Request] in
theorem lastTerms_grants (hg : ∀ w ∈ gs, w.resourceId = r) (r' : Resource) :
    lastTerms ((gs.map fun req => .granted req now).reverse ++ es) c r' =
      if r' = r then ((gs.reverse.find? fun w => w.clientId = c).map
        fun w => (w.timeout, now)).or (lastTerms es c r')
      else lastTerms es c r' := by
  induction gs generalizing es with
  | nil => simp
  | cons w gs ih =>
    rw [List.map_cons, List.reverse_cons, List.append_assoc,
      ih fun v hv => hg v (List.mem_cons_of_mem w hv), List.singleton_append, lastTerms_granted,
      hg w List.mem_cons_self, List.reverse_cons, List.find?_append]
    by_cases hr : r' = r
    · subst hr
      cases gs.reverse.find? (fun w => w.clientId = c) with
      | none => by_cases hc : w.clientId = c <;> simp [hc]
      | some v => simp
    · simp [hr, Ne.symm hr]

theorem Serves.stamps (hs : Serves now r m gs m') (hl : m.locks.get? r = some l)
    {l' : Lock Client Resource Request} (hl' : m'.locks.get? r = some l') :
    l'.timeout = l.timeout ∧ (gs ≠ [] → l'.acquiredAt = now) := by
  induction hs generalizing l with
  | nil =>
    cases hl.symm.trans hl'
    exact ⟨rfl, fun hne => absurd rfl hne⟩
  | @cons m m' k w ws gs hk hw hr hc hs ih =>
    cases hl.symm.trans hk
    have hnext : (m.serveHead now r w).locks.get? r = some _ := serveHead_lock hk hw hr hc
    obtain ⟨ht, ha⟩ := ih hnext hl'
    refine ⟨ht, fun _ => ?_⟩
    cases hs with
    | nil =>
      cases hnext.symm.trans hl'
      rfl
    | cons => exact ha (List.cons_ne_nil _ _)

omit [DecidableEq Request] in
theorem onTime_iff_at (hm : ∀ r, m.OnTime r)
    (hlocks : ∀ r', r' ≠ r → m'.locks.get? r' = m.locks.get? r')
    (hterms : ∀ c r', r' ≠ r → lastTerms m'.history c r' = lastTerms m.history c r') :
    (∀ r', m'.OnTime r') ↔ m'.OnTime r := by
  refine ⟨fun hm' => hm' r, fun hr r' => ?_⟩
  by_cases he : r' = r
  · exact he ▸ hr
  · intro l hl c hc timeout granted hlast
    rw [hlocks r' he] at hl
    rw [hterms c r' he] at hlast
    exact hm r' l hl c hc timeout granted hlast

omit [DecidableEq Request] in
theorem LockManager.OnTime.keep (hm : m.OnTime r)
    (hlocks : ∀ l', m'.locks.get? r = some l' → ∃ l, m.locks.get? r = some l ∧
      l'.timeout = l.timeout ∧ l'.acquiredAt = l.acquiredAt ∧ l'.holderIds ⊆ l.holderIds)
    (hterms : ∀ c, lastTerms m'.history c r = lastTerms m.history c r) : m'.OnTime r := by
  intro l' hl' c hc timeout granted hlast
  obtain ⟨l, hl, ht, ha, hh⟩ := hlocks l' hl'
  rw [hterms c] at hlast
  unfold Lock.isExpired
  rw [ht, ha]
  exact hm l hl c (hh hc) timeout granted hlast

section Release
variable (h : Refines m T) (now : Rat) (client : Client) (hl : m.locks.get? r = some l)
include h hl

theorem Refines.release_other {r' : Resource} (hr : r' ≠ r) :
    (m.applyRelease now client r).locks.get? r' = m.locks.get? r' := by
  have hreleased := h.released now client hl
  generalize m.applyRelease now client r = m' at hreleased
  cases hreleased with
  | handed _ _ hserves =>
    have hserved := hserves.served (drop_lock client l) (front_append l.waiters).symm
    exact (hserved.other r' hr).trans (drop_other client l hr)
  | freed => rw [Dict.get?_erase, if_neg hr, drop_other client l hr]
  | kept => exact drop_other client l hr

theorem Refines.release_lock :
    successors l client = [] ∧ (∀ l', (m.applyRelease now client r).locks.get? r = some l' →
      l'.timeout = l.timeout ∧ l'.acquiredAt = l.acquiredAt ∧ l'.holderIds ⊆ l.holderIds) ∨
    ∃ l', (m.applyRelease now client r).locks.get? r = some l' ∧
      l'.timeout = l.timeout ∧ l'.acquiredAt = now ∧ l'.holderIds = clients (successors l client) := by
  have hreleased := h.released now client hl
  generalize m.applyRelease now client r = m' at hreleased
  cases hreleased with
  | handed hh hw hserves =>
    have hserved := hserves.served (drop_lock client l) (front_append l.waiters).symm
    obtain ⟨l', hl', -, hholders, -⟩ := hserved.lock _ (drop_lock client l)
    obtain ⟨ht, ha⟩ := hserves.stamps (drop_lock client l) hl'
    rw [successors, if_pos hh]
    refine .inr ⟨l', hl', ht, ha (front_ne_nil hw), ?_⟩
    rw [hholders]
    simp only [hh, Finset.empty_union]
  | freed hh hw =>
    refine .inl ⟨by simp [successors, hw, front], fun l' hl' => ?_⟩
    rw [Dict.get?_erase, if_pos rfl] at hl'
    cases hl'
  | kept hh =>
    refine .inl ⟨if_neg hh.ne_empty, fun l' hl' => ?_⟩
    rw [drop_lock] at hl'
    cases hl'
    exact ⟨rfl, rfl, Finset.erase_subset _ _⟩

theorem Refines.release_terms (c : Client) (r' : Resource) :
    lastTerms (m.applyRelease now client r).history c r' =
      if r' = r then (((successors l client).reverse.find? fun w => w.clientId = c).map
        fun w => (w.timeout, now)).or (lastTerms m.history c r')
      else lastTerms m.history c r' := by
  obtain ⟨k, hT, hs⟩ := h.lock hl
  rw [(h.release now client hT).2.2, hs.successors_eq,
    lastTerms_grants fun w hw => k.resourceId_of_mem_grants hw]
  rfl

end Release

section Locks
variable (now : Rat) (req : LockRequest Client Resource Request)

theorem acquire_other (hr : r ≠ req.resourceId) :
    (m.applyAcquire now req).locks.get? r = m.locks.get? r := by
  unfold LockManager.applyAcquire
  dsimp only
  split
  · rw [resolveFuture_locks, Dict.get?_set, if_neg (Ne.symm hr)]
  · rw [Dict.get?_set, if_neg (Ne.symm hr)]

theorem queue_lock (hl : m.locks.get? req.resourceId = some l)
    (hc : ¬ l.canAcquire req.lockType) : (m.applyAcquire now req).locks.get? req.resourceId =
      some { l with waiters := l.waiters ++ [req] } := by
  have hfor : m.lockFor now req = l := lockFor_eq hl
  simp only [LockManager.applyAcquire, hfor, if_neg hc, Dict.get?_set_self]

omit [DecidableEq Client] in
theorem cancel_lock {q : Request} {r' : Resource} {l' : Lock Client Resource Request}
    (hl' : (m.applyCancel q r').locks.get? r = some l') : ∃ l, m.locks.get? r = some l ∧
      l'.timeout = l.timeout ∧ l'.acquiredAt = l.acquiredAt ∧ l'.holderIds = l.holderIds := by
  rw [LockManager.applyCancel, resolveFuture_locks] at hl'
  dsimp only at hl'
  split at hl'
  · rename_i l hl
    rw [Dict.get?_set] at hl'
    split at hl'
    · subst r'
      cases hl'
      exact ⟨l, hl, rfl, rfl, rfl⟩
    · exact ⟨l', hl', rfl, rfl, rfl⟩
  · exact ⟨l', hl', rfl, rfl, rfl⟩

end Locks

theorem Refines.grant_lock (h : Refines m T) (now : Rat)
    (req : LockRequest Client Resource Request)
    (hc : (m.lockFor now req).canAcquire req.lockType) :
    (∃ l', (m.applyAcquire now req).locks.get? req.resourceId = some l' ∧
      l'.acquiredAt = now ∧ l'.timeout = (m.lockFor now req).timeout ∧
      l'.holderIds = insert req.clientId (m.lockFor now req).holderIds) ∧
    ∀ c, lastTerms (m.applyAcquire now req).history c req.resourceId =
      if c = req.clientId then some (req.timeout, now)
      else lastTerms m.history c req.resourceId := by
  constructor
  · refine ⟨{ m.lockFor now req with
      holderIds := insert req.clientId (m.lockFor now req).holderIds
      lockType := req.lockType
      acquiredAt := now }, ?_, rfl, rfl, rfl⟩
    simp only [LockManager.applyAcquire, if_pos hc, resolveFuture_locks, Dict.get?_set_self]
  · intro c
    rw [h.acquire_history now req, if_pos ((h.canAcquire now req).mp hc), lastTerms_granted]
    simp [eq_comm]

section Step
variable (h : Refines m T) (hm : ∀ r, m.OnTime r) (now : Rat)
include h hm

theorem Refines.onTime_release (client : Client) (r : Resource) :
    (∀ r', (m.applyRelease now client r).OnTime r') ↔ ∀ l ∈ m.locks.get? r,
      ∀ w ∈ successors l client,
        w ∈ (successors l client).reverse.find? (fun v => v.clientId = w.clientId) →
          Alike w.timeout l.timeout := by
  cases hl : m.locks.get? r with
  | none =>
    rw [applyRelease_of_free hl]
    exact iff_of_true hm fun l hl => by cases hl
  | some l =>
    simp only [Option.mem_def, Option.some.injEq, forall_eq']
    rw [onTime_iff_at hm (fun r' hr => h.release_other now client hl hr) fun c r' hr => by
      rw [h.release_terms now client hl, if_neg hr]]
    cases h.release_lock now client hl with
    | inl hleft =>
      obtain ⟨hnone, hlocks⟩ := hleft
      refine iff_of_true ((hm r).keep (fun l' hl' => ⟨l, hl, hlocks l' hl'⟩) fun c => ?_) ?_
      · rw [h.release_terms now client hl, hnone, if_pos rfl]
        rfl
      · simp [hnone]
    | inr hpass =>
      obtain ⟨l', hl', ht, ha, hh⟩ := hpass
      have hterms (c : Client) {w : LockRequest Client Resource Request}
          (hw : (successors l client).reverse.find? (fun w => w.clientId = c) = some w) :
          lastTerms (m.applyRelease now client r).history c r = some (w.timeout, now) := by
        rw [h.release_terms now client hl, if_pos rfl, hw]
        rfl
      constructor
      · intro hm' w hw hfind
        have hc : w.clientId ∈ l'.holderIds := hh ▸ mem_clients.mpr ⟨w, hw, rfl⟩
        exact ht ▸ (onTime_granted ha).mp (hm' l' hl' _ hc _ _ (hterms _ hfind))
      · intro hk l'' hl'' c hc timeout granted hlast
        cases hl'.symm.trans hl''
        rw [hh, mem_clients] at hc
        obtain ⟨v, hv, hvc⟩ := hc
        have hsome : ((successors l client).reverse.find? fun w => w.clientId = c).isSome :=
          List.find?_isSome.mpr ⟨v, List.mem_reverse.mpr hv, decide_eq_true hvc⟩
        obtain ⟨w, hw⟩ := Option.isSome_iff_exists.mp hsome
        cases (hterms c hw).symm.trans hlast
        have hfound := List.find?_some hw
        have hwc : w.clientId = c := of_decide_eq_true hfound
        have hmem := List.mem_reverse.mp (List.mem_of_find?_eq_some hw)
        exact (onTime_granted ha).mpr (ht ▸ hk w hmem (hwc ▸ hw))

section Acquire
variable (req : LockRequest Client Resource Request)

omit hm in
theorem Refines.onTime_new (hl : m.locks.get? req.resourceId = none) :
    (m.applyAcquire now req).OnTime req.resourceId := by
  have ht : (m.lockFor now req).timeout = req.timeout := by simp [LockManager.lockFor, hl]
  have hh : (m.lockFor now req).holderIds = ∅ := by simp [LockManager.lockFor, hl]
  have hc : (m.lockFor now req).canAcquire req.lockType := by
    cases req.lockType
    · exact .inr hh
    · exact hh
  obtain ⟨⟨l', hl', ha, ht', hh'⟩, hterms⟩ := h.grant_lock now req hc
  intro l'' hl'' c hc' timeout granted hlast
  cases hl'.symm.trans hl''
  have hcown : c = req.clientId := by simpa [hh', hh] using hc'
  rw [hterms, if_pos hcown] at hlast
  cases hlast
  exact (onTime_granted ha).mpr (.inl (ht'.trans ht).symm)

theorem Refines.onTime_join (hclock : l.acquiredAt ≤ now)
    (hl : m.locks.get? req.resourceId = some l) (hc : l.canAcquire req.lockType) :
    (m.applyAcquire now req).OnTime req.resourceId ↔
      Alike req.timeout l.timeout ∧ ∀ c ∈ l.holderIds, c ≠ req.clientId →
        ∀ terms ∈ lastTerms m.history c req.resourceId,
          now = l.acquiredAt ∨ now + l.timeout < terms.2 := by
  have hfor : m.lockFor now req = l := lockFor_eq hl
  obtain ⟨⟨l', hl', ha, ht, hh⟩, hterms⟩ := h.grant_lock now req (hfor ▸ hc)
  rw [hfor] at ht hh
  constructor
  · intro hm'
    have hown : req.clientId ∈ l'.holderIds := hh ▸ Finset.mem_insert_self _ _
    refine ⟨ht ▸ (onTime_granted ha).mp (hm' l' hl' _ hown _ _ ((hterms _).trans (if_pos rfl))), ?_⟩
    intro c hcl hne terms hlast
    have hc' : c ∈ l'.holderIds := hh ▸ Finset.mem_insert_of_mem hcl
    exact (onTime_restarted (hm _ l hl c hcl _ _ hlast) hclock ha ht).mp
      (hm' l' hl' c hc' _ _ ((hterms c).trans ((if_neg hne).trans hlast)))
  · rintro ⟨halike, hjoin⟩ l'' hl'' c hc' timeout granted hlast
    cases hl'.symm.trans hl''
    rw [hterms] at hlast
    split at hlast
    · cases hlast
      exact (onTime_granted ha).mpr (ht ▸ halike)
    · rename_i hne
      have hcl := Finset.mem_of_mem_insert_of_ne (hh ▸ hc') hne
      exact (onTime_restarted (hm _ l hl c hcl _ _ hlast) hclock ha ht).mpr
        (hjoin c hcl hne _ hlast)

theorem Refines.onTime_queue (hl : m.locks.get? req.resourceId = some l)
    (hc : ¬ l.canAcquire req.lockType) : (m.applyAcquire now req).OnTime req.resourceId := by
  have hfor : m.lockFor now req = l := lockFor_eq hl
  have hno := mt (h.canAcquire now req).mpr (hfor ▸ hc)
  refine (hm req.resourceId).keep (fun l' hl' => ⟨l, hl, ?_⟩) fun c => ?_
  · cases (queue_lock now req hl hc).symm.trans hl'
    exact ⟨rfl, rfl, Finset.Subset.refl _⟩
  · rw [h.acquire_history now req, if_neg hno]
    exact lastTerms_cons _

theorem Refines.onTime_acquire (hclock : ∀ r l, m.locks.get? r = some l → l.acquiredAt ≤ now) :
    (∀ r, (m.applyAcquire now req).OnTime r) ↔
      ∀ l ∈ m.locks.get? req.resourceId, l.canAcquire req.lockType →
        Alike req.timeout l.timeout ∧ ∀ c ∈ l.holderIds, c ≠ req.clientId →
          ∀ terms ∈ lastTerms m.history c req.resourceId,
            now = l.acquiredAt ∨ now + l.timeout < terms.2 := by
  rw [onTime_iff_at hm (fun r hr => acquire_other now req hr) fun c r hr => by
    rw [h.acquire_history now req]
    split
    · rw [lastTerms_granted, if_neg fun hx => hr hx.2.symm]
    · exact lastTerms_cons _]
  cases hl : m.locks.get? req.resourceId with
  | none => exact iff_of_true (h.onTime_new now req hl) fun l hx => by cases hx
  | some l =>
    simp only [Option.mem_def, Option.some.injEq, forall_eq']
    by_cases hc : l.canAcquire req.lockType
    · simpa only [hc, forall_const, Option.mem_def] using h.onTime_join hm now req (hclock _ l hl) hl hc
    · exact iff_of_true (h.onTime_queue hm now req hl hc) fun hc' => absurd hc' hc

end Acquire

omit h in
theorem onTime_cancel (q : Request) (r' : Resource) : (m.applyCancel q r').OnTime r := by
  refine (hm r).keep (fun l' hl' => ?_) fun c => ?_
  · obtain ⟨l, hl, ht, ha, hh⟩ := cancel_lock hl'
    exact ⟨l, hl, ht, ha, hh.subset⟩
  · rw [LockManager.applyCancel, resolveFuture_history]
    exact lastTerms_cons _

theorem Refines.onTime_apply (hclock : ∀ r l, m.locks.get? r = some l → l.acquiredAt ≤ now)
    (cmd : LockCommand Client Resource Request) :
    (∀ r, (m.applyCommand now cmd).OnTime r) ↔ KeepsTerms m now cmd := by
  cases cmd with
  | acquire req => exact h.onTime_acquire hm now req hclock
  | release client r => exact h.onTime_release hm now client r
  | cancel q client r => exact iff_of_true (fun r' => onTime_cancel hm q r) trivial
  | abort client r => exact h.onTime_release hm now client r

end Step

theorem Refines.acquiredAt_apply (h : Refines m T) (now : Rat)
    (cmd : LockCommand Client Resource Request) {l' : Lock Client Resource Request}
    (hl' : (m.applyCommand now cmd).locks.get? r = some l') :
    l'.acquiredAt = now ∨ ∃ l, m.locks.get? r = some l ∧ l'.acquiredAt = l.acquiredAt := by
  have hrelease (client : Client) (r' : Resource)
      (hl' : (m.applyRelease now client r').locks.get? r = some l') :
      l'.acquiredAt = now ∨ ∃ l, m.locks.get? r = some l ∧ l'.acquiredAt = l.acquiredAt := by
    cases hl : m.locks.get? r' with
    | none =>
      rw [applyRelease_of_free hl] at hl'
      exact .inr ⟨l', hl', rfl⟩
    | some l =>
      by_cases hr : r = r'
      · subst r'
        cases h.release_lock now client hl with
        | inl hleft => exact .inr ⟨l, hl, (hleft.2 l' hl').2.1⟩
        | inr hpass =>
          obtain ⟨l'', hl'', -, ha, -⟩ := hpass
          cases hl''.symm.trans hl'
          exact .inl ha
      · rw [h.release_other now client hl hr] at hl'
        exact .inr ⟨l', hl', rfl⟩
  cases cmd with
  | acquire req =>
    by_cases hr : r = req.resourceId
    · subst r
      by_cases hc : (m.lockFor now req).canAcquire req.lockType
      · obtain ⟨⟨l'', hl'', ha, -⟩, -⟩ := h.grant_lock now req hc
        cases hl''.symm.trans hl'
        exact .inl ha
      · cases hT : T req.resourceId with
        | none =>
          exact absurd ((h.canAcquire now req).mpr fun k hk => by rw [hT] at hk; cases hk) hc
        | some k =>
          obtain ⟨l, hl, -⟩ := h.held _ k hT
          have hfor : m.lockFor now req = l := lockFor_eq hl
          cases (queue_lock now req hl (hfor ▸ hc)).symm.trans hl'
          exact .inr ⟨l, hl, rfl⟩
    · exact .inr ⟨l', (acquire_other now req hr).symm.trans hl', rfl⟩
  | release client r' => exact hrelease client r' hl'
  | cancel q client r' =>
    obtain ⟨l, hl, -, ha, -⟩ := cancel_lock hl'
    exact .inr ⟨l, hl, ha⟩
  | abort client r' => exact hrelease client r' hl'

/-- In a run whose times do not decrease every holder expires by its own timeout exactly if all
commands keep to the terms of the locks. -/
theorem onTime_along_iff (cs : List (Rat × LockCommand Client Resource Request))
    (hs : (cs.map Prod.fst).Pairwise (· ≤ ·)) :
    (manager Client Resource Request).Along (fun _ _ t => ∀ r, t.OnTime r)
        (manager Client Resource Request).init cs ↔
      (manager Client Resource Request).Along (fun s c _ => KeepsTerms s c.1 c.2)
        (manager Client Resource Request).init cs := by
  have hrun (m : LockManager Client Resource Request) (T : Table Client Resource Request)
      (href : Refines m T) (hm : ∀ r, m.OnTime r)
      (hclock : ∀ c ∈ cs, ∀ r l, m.locks.get? r = some l → l.acquiredAt ≤ c.1) :
      (manager Client Resource Request).Along (fun _ _ t => ∀ r, t.OnTime r) m cs ↔
        (manager Client Resource Request).Along (fun s c _ => KeepsTerms s c.1 c.2) m cs := by
    induction cs generalizing m T with
    | nil => exact Iff.rfl
    | cons c cs ih =>
      obtain ⟨hle, hs⟩ := List.pairwise_cons.mp hs
      have hiff := href.onTime_apply hm c.1 (hclock c List.mem_cons_self) c.2
      have hnext : ∀ d ∈ cs, ∀ r l, (m.applyCommand c.1 c.2).locks.get? r = some l →
          l.acquiredAt ≤ d.1 := by
        intro d hd r l' hl'
        cases href.acquiredAt_apply c.1 c.2 hl' with
        | inl ha => exact ha ▸ hle d.1 (List.mem_map_of_mem hd)
        | inr hx =>
          obtain ⟨l, hl, ha⟩ := hx
          exact ha ▸ hclock d (List.mem_cons_of_mem c hd) r l hl
      refine forall_congr' fun t => imp_congr_right fun ht => ?_
      cases ht
      constructor
      · intro hp
        exact ⟨hiff.mp hp.1, (ih hs _ _ (href.apply c.1 c.2) hp.1 hnext).mp hp.2⟩
      · intro hp
        have hm' := hiff.mpr hp.1
        exact ⟨hm', (ih hs _ _ (href.apply c.1 c.2) hm' hnext).mpr hp.2⟩
  exact hrun _ _ refines_init (fun r l hl => by cases hl) fun c _ r l hl => by cases hl

/-- The lock was made for a timeout of 30; its second holder asked for 5. -/
def impatient : List (Rat × LockCommand Nat Nat Nat) :=
  [(0, exclusive 0 0 0),
   (1, .acquire { requestId := 1, clientId := 1, resourceId := 0, lockType := .exclusive,
                  timeout := 5 }),
   (2, .release 0 0)]

theorem not_onTime_impatient : (impatient.map Prod.fst).Pairwise (· ≤ ·) ∧
    ∃ m, (manager Nat Nat Nat).run (manager Nat Nat Nat).init impatient = some m ∧
      ¬ ∀ r, m.OnTime r := by
  refine ⟨by decide +kernel, ?_⟩
  have hrun : ((manager Nat Nat Nat).run (manager Nat Nat Nat).init impatient).any (fun m =>
      lastTerms m.history 1 0 = some (5, 2) ∧
        ∃ l ∈ m.locks.get? 0, 1 ∈ l.holderIds ∧ ¬ l.isExpired 10) = true := by
    decide +kernel
  obtain ⟨m, hm, hx⟩ := (Option.any_eq_true ..).mp hrun
  obtain ⟨hlast, l, hl, hc, hnot⟩ := of_decide_eq_true hx
  refine ⟨m, hm, fun hall => hnot ?_⟩
  exact (hall 0 l hl 1 hc 5 2 hlast 10 (by norm_num)).mpr (by norm_num)

/-- Both ask for 30. -/
def patient : List (Rat × LockCommand Nat Nat Nat) :=
  [(0, exclusive 0 0 0), (1, exclusive 1 1 0), (2, .release 0 0)]

theorem onTime_patient : (manager Nat Nat Nat).Along (fun _ _ t => ∀ r, t.OnTime r)
    (manager Nat Nat Nat).init patient :=
  (onTime_along_iff patient (by decide +kernel)).mpr (by decide +kernel)

end DistSync.Locking
