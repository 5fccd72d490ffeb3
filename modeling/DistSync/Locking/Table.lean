import Mathlib.Data.Finset.Union
import Mathlib.Data.List.TakeWhile
import Mathlib.Logic.Function.Basic
import DistSync.Locking.Manager

/-! What the lock manager is for: a table of held locks with queues. A resource
without an entry is free; an entry always has a holder and queues only requests for
its own resource. The manager's state shows such a table, and every command acts on
it as the table's own operation does. -/
namespace DistSync.Locking

structure Held (Client Resource Request : Type) (r : Resource) where
  lockType : LockType
  holders : Finset Client
  waiters : List (LockRequest Client Resource Request)
  held : holders.Nonempty
  filed : ∀ w ∈ waiters, w.resourceId = r

abbrev Table (Client Resource Request : Type) :=
  (r : Resource) → Option (Held Client Resource Request r)

variable {Client Resource Request : Type}
  [DecidableEq Client]

/-- Who is served when a lock becomes free, and who stays: one exclusive request, or
all shared ones at the front. -/
def front : List (LockRequest Client Resource Request) →
    List (LockRequest Client Resource Request) × List (LockRequest Client Resource Request)
  | [] => ([], [])
  | w :: ws =>
    match w.lockType with
    | .exclusive => ([w], ws)
    | .shared => (w :: ws).span fun v => v.lockType = .shared

def clients (ws : List (LockRequest Client Resource Request)) : Finset Client :=
  (ws.map LockRequest.clientId).toFinset

@[simp] theorem mem_clients {ws : List (LockRequest Client Resource Request)} {c : Client} :
    c ∈ clients ws ↔ ∃ w ∈ ws, w.clientId = c := by
  simp [clients]

omit [DecidableEq Client] in
theorem front_append (ws : List (LockRequest Client Resource Request)) :
    (front ws).1 ++ (front ws).2 = ws := by
  cases ws with
  | nil => rfl
  | cons w ws =>
    cases ht : w.lockType with
    | exclusive => simp [front, ht]
    | shared =>
      simp only [front, ht, List.span_eq_takeWhile_dropWhile, List.takeWhile_append_dropWhile]

omit [DecidableEq Client] in
theorem front_ne_nil {ws : List (LockRequest Client Resource Request)} (h : ws ≠ []) :
    (front ws).1 ≠ [] := by
  cases ws with
  | nil => exact absurd rfl h
  | cons w ws =>
    cases ht : w.lockType with
    | exclusive => simp [front, ht]
    | shared => simp [front, ht, List.span_eq_takeWhile_dropWhile]

theorem clients_front_nonempty {ws : List (LockRequest Client Resource Request)} (h : ws ≠ []) :
    (clients (front ws).1).Nonempty := by
  obtain ⟨w, hw⟩ := List.exists_mem_of_ne_nil _ (front_ne_nil h)
  exact ⟨w.clientId, mem_clients.mpr ⟨w, hw, rfl⟩⟩

def frontType (ws : List (LockRequest Client Resource Request)) : LockType :=
  (ws.head?.map LockRequest.lockType).getD .exclusive

omit [DecidableEq Client] in
theorem front_getLast {ws : List (LockRequest Client Resource Request)} (h : ws ≠ [])
    {t : LockType} : ((front ws).1.getLast?.map LockRequest.lockType).getD t = frontType ws := by
  cases ws with
  | nil => exact absurd rfl h
  | cons w ws =>
    cases ht : w.lockType with
    | exclusive => simp [front, frontType, ht]
    | shared =>
      have hne : (front (w :: ws)).1 ≠ [] := front_ne_nil h
      have hmem := List.getLast_mem hne
      rw [List.getLast?_eq_some_getLast hne]
      simp only [front, ht, List.span_eq_takeWhile_dropWhile] at hmem
      have hsh := List.mem_takeWhile_imp hmem
      simpa [front, frontType, ht, List.span_eq_takeWhile_dropWhile] using hsh

namespace Held
variable {r : Resource}

def Admits (h : Option (Held Client Resource Request r)) (t : LockType) : Prop :=
  ∀ l ∈ h, t = .shared ∧ l.lockType = .shared

instance (h : Option (Held Client Resource Request r)) (t : LockType) : Decidable (Admits h t) :=
  inferInstanceAs (Decidable (∀ l ∈ h, _))

def grant (h : Option (Held Client Resource Request r))
    (req : LockRequest Client Resource Request) : Held Client Resource Request r where
  lockType := req.lockType
  holders := insert req.clientId ((h.map holders).getD ∅)
  waiters := (h.map waiters).getD []
  held := Finset.insert_nonempty ..
  filed := by
    cases h with
    | none => exact fun w hw => by cases hw
    | some l => exact l.filed

def queue (l : Held Client Resource Request r) (req : LockRequest Client Resource Request)
    (hr : req.resourceId = r) : Held Client Resource Request r where
  lockType := l.lockType
  holders := l.holders
  waiters := l.waiters ++ [req]
  held := l.held
  filed w hw := by
    cases List.mem_append.mp hw with
    | inl hw => exact l.filed w hw
    | inr hw => rwa [List.mem_singleton.mp hw]

def acquire (h : Option (Held Client Resource Request r))
    (req : LockRequest Client Resource Request) (hr : req.resourceId = r) :
    Held Client Resource Request r :=
  if Admits h req.lockType then grant h req
  else
    match h with
    | none => grant none req
    | some l => l.queue req hr

def handOver (l : Held Client Resource Request r) (h : l.waiters ≠ []) :
    Held Client Resource Request r where
  lockType := frontType l.waiters
  holders := clients (front l.waiters).1
  waiters := (front l.waiters).2
  held := clients_front_nonempty h
  filed w hw := l.filed w (by
    rw [← front_append l.waiters]
    exact List.mem_append_right _ hw)

def release (l : Held Client Resource Request r) (client : Client) :
    Option (Held Client Resource Request r) :=
  if h : (l.holders.erase client).Nonempty then
    some { l with holders := l.holders.erase client, held := h }
  else if h : l.waiters ≠ [] then some (l.handOver h)
  else none

def releaseGrants (l : Held Client Resource Request r) (client : Client) :
    List (LockRequest Client Resource Request) :=
  if (l.holders.erase client).Nonempty then [] else (front l.waiters).1

theorem releaseGrants_subset (l : Held Client Resource Request r) (client : Client) :
    l.releaseGrants client ⊆ l.waiters := by
  unfold releaseGrants
  split
  · exact List.nil_subset _
  · exact fun w hw => front_append l.waiters ▸ List.mem_append_left _ hw

theorem resourceId_of_mem_grants (k : Held Client Resource Request r) {client : Client}
    {w : LockRequest Client Resource Request} (hw : w ∈ k.releaseGrants client) :
    w.resourceId = r := k.filed w (k.releaseGrants_subset client hw)

def releaseRest (l : Held Client Resource Request r) (client : Client) :
    List (LockRequest Client Resource Request) :=
  if (l.holders.erase client).Nonempty then l.waiters else (front l.waiters).2

theorem releaseRest_subset (l : Held Client Resource Request r) (client : Client) :
    l.releaseRest client ⊆ l.waiters := by
  unfold releaseRest
  split
  · exact List.Subset.refl _
  · exact fun w hw => front_append l.waiters ▸ List.mem_append_right _ hw

theorem release_some {l l' : Held Client Resource Request r} {client : Client}
    (h : l.release client = some l') : l'.waiters = l.releaseRest client ∧
      l'.holders = l.holders.erase client ∪ clients (l.releaseGrants client) := by
  unfold release at h
  unfold releaseRest releaseGrants
  split at h
  · rename_i hne
    cases h
    simp [hne, clients]
  · rename_i hne
    split at h
    · cases h
      simp [handOver, Finset.not_nonempty_iff_eq_empty.mp hne]
    · cases h

theorem release_none {l : Held Client Resource Request r} {client : Client}
    (h : l.release client = none) : l.releaseRest client = [] := by
  unfold release at h
  unfold releaseRest
  split at h
  · cases h
  · rename_i hne
    split at h
    · cases h
    · rename_i hw
      rw [if_neg hne, not_not.mp hw]
      rfl

variable [DecidableEq Request]

def cancel (l : Held Client Resource Request r) (request : Request) :
    Held Client Resource Request r :=
  { l with
    waiters := l.waiters.filter fun w => w.requestId ≠ request
    filed := fun w hw => l.filed w (List.mem_filter.mp hw).1 }

end Held

variable [DecidableEq Resource]

namespace Table
variable [DecidableEq Request]

def apply (T : Table Client Resource Request) :
    LockCommand Client Resource Request → Table Client Resource Request
  | .acquire req =>
    Function.update T req.resourceId (some (Held.acquire (T req.resourceId) req rfl))
  | .release client r => Function.update T r ((T r).bind fun l => l.release client)
  | .cancel request _ r => Function.update T r ((T r).map fun l => l.cancel request)
  | .abort client r => Function.update T r ((T r).bind fun l => l.release client)

def grants (T : Table Client Resource Request) :
    LockCommand Client Resource Request → List (LockRequest Client Resource Request)
  | .acquire req => if Held.Admits (T req.resourceId) req.lockType then [req] else []
  | .release client r => ((T r).map fun l => l.releaseGrants client).getD []
  | .cancel _ _ _ => []
  | .abort client r => ((T r).map fun l => l.releaseGrants client).getD []

/-- The table after a sequence of commands, and the requests they granted, in order. -/
def replay (T : Table Client Resource Request) :
    List (LockCommand Client Resource Request) →
      Table Client Resource Request × List (LockRequest Client Resource Request)
  | [] => (T, [])
  | c :: cs => (((T.apply c).replay cs).1, T.grants c ++ ((T.apply c).replay cs).2)

theorem replay_append (T : Table Client Resource Request)
    (cs ds : List (LockCommand Client Resource Request)) :
    T.replay (cs ++ ds) =
      (((T.replay cs).1.replay ds).1, (T.replay cs).2 ++ ((T.replay cs).1.replay ds).2) := by
  induction cs generalizing T with
  | nil => rfl
  | cons c cs ih => simp [replay, ih]

theorem replay_concat (T : Table Client Resource Request)
    (cs : List (LockCommand Client Resource Request)) (c : LockCommand Client Resource Request) :
    T.replay (cs ++ [c]) =
      ((T.replay cs).1.apply c, (T.replay cs).2 ++ (T.replay cs).1.grants c) := by
  rw [replay_append]
  simp [replay]

def Queues (T : Table Client Resource Request) (req : LockRequest Client Resource Request) : Prop :=
  ∃ r k, T r = some k ∧ req ∈ k.waiters

variable {T : Table Client Resource Request} {req : LockRequest Client Resource Request}

omit [DecidableEq Client] [DecidableEq Request] in
theorem Queues.update {r : Resource} {v : Option (Held Client Resource Request r)}
    (h : Queues (Function.update T r v) req) :
    (∃ k, v = some k ∧ req ∈ k.waiters) ∨ T.Queues req := by
  obtain ⟨r', k, hk, hw⟩ := h
  by_cases he : r' = r
  · subst he
    rw [Function.update_self] at hk
    exact .inl ⟨k, hk, hw⟩
  · rw [Function.update_of_ne he] at hk
    exact .inr ⟨r', k, hk, hw⟩

omit [DecidableEq Resource] [DecidableEq Request] in
theorem queues_acquire {r : Resource} {req' : LockRequest Client Resource Request}
    {hr : req'.resourceId = r} (h : req ∈ (Held.acquire (T r) req' hr).waiters) :
    req = req' ∨ T.Queues req := by
  unfold Held.acquire at h
  cases hT : T r with
  | none =>
    rw [hT] at h
    simp [Held.Admits, Held.grant] at h
  | some k =>
    rw [hT] at h
    split at h
    · exact .inr ⟨r, k, hT, by simpa [Held.grant] using h⟩
    · cases List.mem_append.mp h with
      | inl h => exact .inr ⟨r, k, hT, h⟩
      | inr h => exact .inl (List.mem_singleton.mp h)

theorem queues_apply {c : LockCommand Client Resource Request} (h : (T.apply c).Queues req) :
    c = .acquire req ∨ T.Queues req := by
  have hrelease {client : Client} {r : Resource}
      (h : Queues (Function.update T r ((T r).bind fun l => l.release client)) req) :
      T.Queues req := by
    cases h.update with
    | inl h =>
      obtain ⟨k, hk, hw⟩ := h
      obtain ⟨l, hl, hr⟩ := Option.bind_eq_some_iff.mp hk
      exact ⟨r, l, hl, l.releaseRest_subset client ((Held.release_some hr).1 ▸ hw)⟩
    | inr h => exact h
  cases c with
  | acquire req' =>
    cases h.update with
    | inl h =>
      obtain ⟨k, hk, hw⟩ := h
      cases hk
      cases queues_acquire hw with
      | inl he => exact .inl (he ▸ rfl)
      | inr h => exact .inr h
    | inr h => exact .inr h
  | release client r => exact .inr (hrelease h)
  | cancel q client r =>
    cases h.update with
    | inl h =>
      obtain ⟨k, hk, hw⟩ := h
      obtain ⟨l, hl, rfl⟩ := Option.map_eq_some_iff.mp hk
      exact .inr ⟨r, l, hl, (List.mem_filter.mp hw).1⟩
    | inr h => exact .inr h
  | abort client r => exact .inr (hrelease h)

omit [DecidableEq Resource] [DecidableEq Request] in
theorem queues_of_grants {c : LockCommand Client Resource Request} (h : req ∈ T.grants c) :
    c = .acquire req ∨ T.Queues req := by
  have hrelease {client : Client} {r : Resource}
      (h : req ∈ ((T r).map fun l => l.releaseGrants client).getD []) : T.Queues req := by
    cases hT : T r with
    | none =>
      rw [hT] at h
      cases h
    | some k =>
      rw [hT] at h
      exact ⟨r, k, hT, k.releaseGrants_subset client h⟩
  cases c with
  | acquire req' =>
    simp only [grants] at h
    split at h
    · exact .inl (by rw [List.mem_singleton.mp h])
    · cases h
  | release client r => exact .inr (hrelease h)
  | cancel q client r => cases h
  | abort client r => exact .inr (hrelease h)

theorem acquire_of_replay {cs : List (LockCommand Client Resource Request)}
    (h : req ∈ (T.replay cs).2) : .acquire req ∈ cs ∨ T.Queues req := by
  induction cs generalizing T with
  | nil => cases h
  | cons c cs ih =>
    cases List.mem_append.mp h with
    | inl h =>
      cases queues_of_grants h with
      | inl hc => exact .inl (hc ▸ List.mem_cons_self)
      | inr h => exact .inr h
    | inr h =>
      cases ih h with
      | inl h => exact .inl (List.mem_cons_of_mem c h)
      | inr h =>
        cases queues_apply h with
        | inl hc => exact .inl (hc ▸ List.mem_cons_self)
        | inr h => exact .inr h

theorem not_queues_cancel (T : Table Client Resource Request)
    (req : LockRequest Client Resource Request) (client : Client) :
    ¬ (T.apply (.cancel req.requestId client req.resourceId)).Queues req := by
  intro hx
  obtain ⟨r, k, hk, hw⟩ := hx
  simp only [apply] at hk
  by_cases he : r = req.resourceId
  · subst he
    rw [Function.update_self] at hk
    obtain ⟨l, hl, rfl⟩ := Option.map_eq_some_iff.mp hk
    exact absurd rfl (of_decide_eq_true (List.mem_filter.mp hw).2)
  · exact he (k.filed req hw).symm

def free : Table Client Resource Request := fun _ => none

omit [DecidableEq Client] [DecidableEq Resource] [DecidableEq Request] in
theorem not_queues_free (req : LockRequest Client Resource Request) :
    ¬ (free : Table Client Resource Request).Queues req := by
  intro hx
  obtain ⟨r, k, hk, -⟩ := hx
  cases hk

end Table
end DistSync.Locking
