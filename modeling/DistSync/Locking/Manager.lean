import Mathlib.Data.Rat.Defs
import Mathlib.Logic.Function.Basic
import DistSync.Run
import DistSync.Locking.WaitForGraph

/-! The state machine of `DistributedLockManager`: the lock table, the wait-for graph
and the futures of waiting requests, and what each committed command does to them.
`history` records, newest first, what happened to requests; nothing reads it. -/
namespace DistSync.Locking

inductive LockType where
  | shared
  | exclusive
deriving DecidableEq

inductive LockStatus where
  | granted
  | waiting
  | denied
  | released
  | expired
deriving DecidableEq

structure LockRequest (Client Resource Request : Type) where
  requestId : Request
  clientId : Client
  resourceId : Resource
  lockType : LockType
  timeout : Rat := 30
deriving DecidableEq

structure Lock (Client Resource Request : Type) where
  resourceId : Resource
  lockType : LockType
  holderIds : Finset Client := ∅
  waiters : List (LockRequest Client Resource Request) := []
  acquiredAt : Rat
  timeout : Rat := 30

/-- The payloads of committed entries, as far as they are read. -/
inductive LockCommand (Client Resource Request : Type) where
  | acquire (request : LockRequest Client Resource Request)
  | release (clientId : Client) (resourceId : Resource)
  | cancel (requestId : Request) (clientId : Client) (resourceId : Resource)
  | abort (clientId : Client) (resourceId : Resource)
deriving DecidableEq

inductive LockEvent (Client Resource Request : Type) where
  | granted (request : LockRequest Client Resource Request) (now : Rat)
  | queued (request : LockRequest Client Resource Request)
  | released (clientId : Client) (resourceId : Resource)
  | cancelled (requestId : Request) (resourceId : Resource)
deriving DecidableEq

/-- `pendingFutures` are the requests whose future is registered; `results` are the
results set on futures so far. -/
structure LockManager (Client Resource Request : Type) where
  locks : Dict Resource (Lock Client Resource Request) := ∅
  clientLocks : Client → Finset Resource := fun _ => ∅
  wfg : WaitForGraph Client := {}
  pendingFutures : Finset Request := ∅
  results : Dict Request LockStatus := ∅
  history : List (LockEvent Client Resource Request) := []

variable {Client Resource Request : Type}
  [DecidableEq Client] [DecidableEq Resource] [DecidableEq Request]

def Lock.isExpired (lock : Lock Client Resource Request) (now : Rat) : Prop :=
  now - lock.acquiredAt > lock.timeout

instance (lock : Lock Client Resource Request) (now : Rat) : Decidable (lock.isExpired now) :=
  inferInstanceAs (Decidable (_ > _))

def Lock.canAcquireShared (lock : Lock Client Resource Request) : Prop :=
  lock.lockType = .shared ∨ lock.holderIds = ∅

def Lock.canAcquireExclusive (lock : Lock Client Resource Request) : Prop := lock.holderIds = ∅

def Lock.canAcquire (lock : Lock Client Resource Request) : LockType → Prop
  | .shared => lock.canAcquireShared
  | .exclusive => lock.canAcquireExclusive

instance (lock : Lock Client Resource Request) (t : LockType) : Decidable (lock.canAcquire t) :=
  match t with
  | .shared => inferInstanceAs (Decidable (_ ∨ _))
  | .exclusive => inferInstanceAs (Decidable (_ = _))

namespace LockManager

/-- The lock of `resource` as `_apply_acquire` finds it, made for the request if there is none. -/
def lockFor (m : LockManager Client Resource Request) (now : Rat)
    (req : LockRequest Client Resource Request) : Lock Client Resource Request :=
  (m.locks.get? req.resourceId).getD
    { resourceId := req.resourceId
      lockType := req.lockType
      acquiredAt := now
      timeout := req.timeout }

/-- Pop the request's future, if it is registered, and set its result. -/
def resolveFuture (m : LockManager Client Resource Request) (request : Request)
    (status : LockStatus) : LockManager Client Resource Request :=
  if request ∈ m.pendingFutures then
    { m with
      pendingFutures := m.pendingFutures.erase request
      results := m.results.set request status }
  else m

def applyAcquire (m : LockManager Client Resource Request) (now : Rat)
    (req : LockRequest Client Resource Request) : LockManager Client Resource Request :=
  let lock := m.lockFor now req
  if lock.canAcquire req.lockType then
    resolveFuture
      { m with
        locks := m.locks.set req.resourceId
          { lock with
            holderIds := insert req.clientId lock.holderIds
            lockType := req.lockType
            acquiredAt := now }
        clientLocks := Function.update m.clientLocks req.clientId
          (insert req.resourceId (m.clientLocks req.clientId))
        wfg := m.wfg.removeWait req.clientId none
        history := .granted req now :: m.history }
      req.requestId .granted
  else
    { m with
      locks := m.locks.set req.resourceId { lock with waiters := lock.waiters ++ [req] }
      wfg := m.wfg.addWaits req.clientId lock.holderIds
      history := .queued req :: m.history }

def waitersOf (m : LockManager Client Resource Request) (resource : Resource) :
    List (LockRequest Client Resource Request) :=
  ((m.locks.get? resource).map Lock.waiters).getD []

/-- `lock.waiters.pop(0)`. -/
def popWaiter (m : LockManager Client Resource Request) (resource : Resource) :
    LockManager Client Resource Request :=
  match m.locks.get? resource with
  | some lock =>
    { m with locks := m.locks.set resource { lock with waiters := lock.waiters.tail } }
  | none => m

/-- The `while` loop of `_grant_next` over the shared readers at the front. Each turn
pops one, so as many turns as there are waiters are enough. -/
def grantShared (now : Rat) (resource : Resource) :
    Nat → LockManager Client Resource Request → LockManager Client Resource Request
  | 0, m => m
  | turns + 1, m =>
    match m.waitersOf resource with
    | [] => m
    | req :: _ =>
      if req.lockType = .shared then
        grantShared now resource turns ((m.popWaiter resource).applyAcquire now req)
      else m

def grantNext (m : LockManager Client Resource Request) (now : Rat) (resource : Resource) :
    LockManager Client Resource Request :=
  match m.waitersOf resource with
  | [] => m
  | next :: rest =>
    match next.lockType with
    | .exclusive => (m.popWaiter resource).applyAcquire now next
    | .shared => grantShared now resource (rest.length + 1) m

def applyRelease (m : LockManager Client Resource Request) (now : Rat) (client : Client)
    (resource : Resource) : LockManager Client Resource Request :=
  match m.locks.get? resource with
  | none => m
  | some lock =>
    let lock := { lock with holderIds := lock.holderIds.erase client }
    let m :=
      { m with
        locks := m.locks.set resource lock
        clientLocks := Function.update m.clientLocks client ((m.clientLocks client).erase resource)
        wfg := m.wfg.removeNode client
        history := .released client resource :: m.history }
    if lock.holderIds = ∅ ∧ lock.waiters ≠ [] then m.grantNext now resource
    else if lock.holderIds = ∅ then { m with locks := m.locks.erase resource }
    else m

def applyCancel (m : LockManager Client Resource Request) (request : Request)
    (resource : Resource) : LockManager Client Resource Request :=
  resolveFuture
    { m with
      locks :=
        match m.locks.get? resource with
        | some lock => m.locks.set resource
            { lock with waiters := lock.waiters.filter fun w => w.requestId ≠ request }
        | none => m.locks
      history := .cancelled request resource :: m.history }
    request .denied

def applyCommand (m : LockManager Client Resource Request) (now : Rat) :
    LockCommand Client Resource Request → LockManager Client Resource Request
  | .acquire request => m.applyAcquire now request
  | .release client resource => m.applyRelease now client resource
  | .cancel request _ resource => m.applyCancel request resource
  | .abort client resource => m.applyRelease now client resource

end LockManager

/-- A lock manager fed with committed commands, each with the time at which it is applied. -/
def manager (Client Resource Request : Type)
    [DecidableEq Client] [DecidableEq Resource] [DecidableEq Request] :
    System (LockManager Client Resource Request)
      (Rat × LockCommand Client Resource Request) where
  init := {}
  step m c := some (m.applyCommand c.1 c.2)

end DistSync.Locking
