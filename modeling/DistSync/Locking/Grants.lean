import DistSync.Locking.Table

/-! `_grant_next` as the sequence of its grants. Each pops the first waiter of a lock that
admits it, so what a hand-over does is what one such grant does, over and over. -/
namespace DistSync.Locking
variable {Client Resource Request : Type}
variable {m m' : LockManager Client Resource Request} {now : Rat} {r : Resource}
  {l : Lock Client Resource Request} {w : LockRequest Client Resource Request}
  {ws gs : List (LockRequest Client Resource Request)}

section Frame
variable (m : LockManager Client Resource Request) (q : Request) (status : LockStatus)
  [DecidableEq Request]

@[simp] theorem resolveFuture_locks : (m.resolveFuture q status).locks = m.locks := by
  unfold LockManager.resolveFuture
  split <;> rfl

@[simp] theorem resolveFuture_wfg : (m.resolveFuture q status).wfg = m.wfg := by
  unfold LockManager.resolveFuture
  split <;> rfl

@[simp] theorem resolveFuture_clientLocks :
    (m.resolveFuture q status).clientLocks = m.clientLocks := by
  unfold LockManager.resolveFuture
  split <;> rfl

@[simp] theorem resolveFuture_history : (m.resolveFuture q status).history = m.history := by
  unfold LockManager.resolveFuture
  split <;> rfl

end Frame

variable [DecidableEq Resource]

theorem waitersOf_eq (hl : m.locks.get? r = some l) :
    m.waitersOf r = l.waiters := by
  simp [LockManager.waitersOf, hl]

theorem lockFor_eq {req : LockRequest Client Resource Request}
    (hl : m.locks.get? req.resourceId = some l) : m.lockFor now req = l := by
  simp [LockManager.lockFor, hl]

variable [DecidableEq Client] [DecidableEq Request]

def LockManager.serveHead (m : LockManager Client Resource Request) (now : Rat) (r : Resource)
    (w : LockRequest Client Resource Request) : LockManager Client Resource Request :=
  (m.popWaiter r).applyAcquire now w

/-- `m'` is `m` after the requests of the list were popped from the front of the waiters of `r`
and granted, each by a lock that admitted it. -/
inductive Serves (now : Rat) (r : Resource) : LockManager Client Resource Request →
    List (LockRequest Client Resource Request) → LockManager Client Resource Request → Prop
  | nil {m : LockManager Client Resource Request} : Serves now r m [] m
  | cons {m m' : LockManager Client Resource Request} {l : Lock Client Resource Request}
      {w : LockRequest Client Resource Request}
      {ws gs : List (LockRequest Client Resource Request)}
      (hl : m.locks.get? r = some l) (hw : l.waiters = w :: ws) (hr : w.resourceId = r)
      (hc : l.canAcquire w.lockType) (h : Serves now r (m.serveHead now r w) gs m') :
    Serves now r m (w :: gs) m'

section Head
variable (hl : m.locks.get? r = some l) (hw : l.waiters = w :: ws) (hr : w.resourceId = r)
  (hc : l.canAcquire w.lockType)
include hl hw hr hc

theorem serveHead_eq : m.serveHead now r w = LockManager.resolveFuture
    { m with
      locks := m.locks.set r
        { l with
          waiters := ws
          holderIds := insert w.clientId l.holderIds
          lockType := w.lockType
          acquiredAt := now }
      clientLocks := Function.update m.clientLocks w.clientId (insert r (m.clientLocks w.clientId))
      wfg := m.wfg.removeWait w.clientId none
      history := .granted w now :: m.history }
    w.requestId .granted := by
  have hpop : m.popWaiter r = { m with locks := m.locks.set r { l with waiters := ws } } := by
    simp [LockManager.popWaiter, hl, hw]
  have hfor : (m.popWaiter r).lockFor now w = { l with waiters := ws } := by
    simp [hpop, LockManager.lockFor, hr]
  have hcan : ((m.popWaiter r).lockFor now w).canAcquire w.lockType := by
    rw [hfor]
    cases ht : w.lockType <;> rw [ht] at hc <;> exact hc
  unfold LockManager.serveHead LockManager.applyAcquire
  simp only [if_pos hcan]
  rw [hfor, hpop, hr]
  simp only [Dict.set_set]

theorem serveHead_lock : (m.serveHead now r w).locks.get? r = some
    { l with
      waiters := ws
      holderIds := insert w.clientId l.holderIds
      lockType := w.lockType
      acquiredAt := now } := by
  rw [serveHead_eq hl hw hr hc, resolveFuture_locks, Dict.get?_set_self]

theorem serveHead_clientLocks (c : Client) (r' : Resource) :
    r' ∈ (m.serveHead now r w).clientLocks c ↔
      r' ∈ m.clientLocks c ∨ r' = r ∧ c = w.clientId := by
  rw [serveHead_eq hl hw hr hc, resolveFuture_clientLocks]
  by_cases he : c = w.clientId
  · subst he
    simp [or_comm]
  · simp [he]

end Head

theorem serves_shared (now : Rat) {turns : Nat} (hl : m.locks.get? r = some l)
    (hc : l.canAcquireShared) (hf : ∀ v ∈ l.waiters, v.resourceId = r)
    (ht : l.waiters.length ≤ turns) :
    Serves now r m (l.waiters.takeWhile fun v => v.lockType = .shared)
      (LockManager.grantShared now r turns m) := by
  induction turns generalizing m l with
  | zero =>
    rw [List.length_eq_zero_iff.mp (Nat.le_zero.mp ht)]
    exact .nil
  | succ turns ih =>
    unfold LockManager.grantShared
    rw [waitersOf_eq hl]
    cases hw : l.waiters with
    | nil => exact .nil
    | cons v vs =>
      dsimp only
      by_cases hsh : v.lockType = .shared
      · rw [hw] at hf ht
        have hv : v.resourceId = r := hf v List.mem_cons_self
        have hcv : l.canAcquire v.lockType := by rwa [hsh]
        simp only [List.takeWhile_cons, hsh, decide_true]
        refine .cons hl hw hv hcv (ih (serveHead_lock hl hw hv hcv) (.inl hsh) ?_ ?_)
        · exact fun u hu => hf u (List.mem_cons_of_mem v hu)
        · exact Nat.le_of_succ_le_succ ht
      · simp only [List.takeWhile_cons, hsh, decide_false]
        exact .nil

theorem serves_next (now : Rat) (hl : m.locks.get? r = some l) (hh : l.holderIds = ∅)
    (hf : ∀ v ∈ l.waiters, v.resourceId = r) :
    Serves now r m (front l.waiters).1 (m.grantNext now r) := by
  unfold LockManager.grantNext
  rw [waitersOf_eq hl]
  cases hw : l.waiters with
  | nil => exact .nil
  | cons v vs =>
    dsimp only
    cases ht : v.lockType with
    | exclusive =>
      simp only [front, ht]
      exact .cons hl hw (hf v (hw ▸ List.mem_cons_self)) (by rwa [ht]) .nil
    | shared =>
      have hlen : l.waiters.length ≤ vs.length + 1 := by simp [hw]
      have hs := serves_shared now hl (.inr hh) hf hlen
      simpa only [front, ht, List.span_eq_takeWhile_dropWhile, hw] using hs

theorem Serves.clientLocks (h : Serves now r m gs m') (c : Client) (r' : Resource) :
    r' ∈ m'.clientLocks c ↔ r' ∈ m.clientLocks c ∨ r' = r ∧ c ∈ clients gs := by
  induction h with
  | nil => simp [clients]
  | cons hl hw hr hc _ ih =>
    rw [ih, serveHead_clientLocks hl hw hr hc]
    simp only [mem_clients, List.mem_cons, exists_eq_or_imp]
    grind

end DistSync.Locking
