import DistSync.Raft.Cluster
import DistSync.Locking.Manager

/-! The lock service: a Raft cluster whose nodes feed committed commands to their lock
managers, and the `acquire` calls that are suspended in it. Request ids are numbers in
place of fresh uuids; `returned` records, newest first, what calls have answered. -/
namespace DistSync.Locking
open Raft

/-- Where an `acquire` is suspended: in the proposal of its `lock_acquire`, in its wait
for the grant, or in the proposal of its `lock_cancel`. -/
inductive Phase where
  | proposing (future : Nat)
  | waiting
  | cancelling (future : Nat)
deriving DecidableEq

structure AcquireCall (Id Client Resource : Type) where
  node : Id
  request : LockRequest Client Resource Nat
  phase : Phase
deriving DecidableEq

structure LockCluster (Id Addr Client Resource : Type) where
  raft : Cluster Id Addr (LockCommand Client Resource Nat)
  managers : Id → LockManager Client Resource Nat := fun _ => {}
  acquires : List (AcquireCall Id Client Resource) := []
  returned : List (LockRequest Client Resource Nat × LockStatus) := []
  fresh : Nat := 0

/-- `raft` stands for timers, tasks and messages of Raft; `release` and `abort` also stand
for what the timeout checker and the deadlock detector propose. -/
inductive LockAction (Id Client Resource : Type) where
  | raft (a : Action Id (LockCommand Client Resource Nat))
  | release (n : Id) (client : Client) (resource : Resource)
  | abort (n : Id) (client : Client) (resource : Resource)
  | acquire (n : Id) (client : Client) (resource : Resource) (lockType : LockType) (timeout : Rat)
  | finishPropose (n : Id) (k : Nat)
  | wake (j : Nat)
  | waitTimeout (j : Nat)
  | applyNext (n : Id) (now : Rat)

variable {Id Addr Client Resource : Type}
  [DecidableEq Id] [DecidableEq Addr] [DecidableEq Client] [DecidableEq Resource]

namespace LockManager

/-- `self._pending_futures[request_id] = future`. -/
def registerFuture (m : LockManager Client Resource Nat) (request : Nat) :
    LockManager Client Resource Nat :=
  { m with pendingFutures := insert request m.pendingFutures }

/-- `self._pending_futures.pop(request_id, None)`. -/
def popFuture (m : LockManager Client Resource Nat) (request : Nat) :
    LockManager Client Resource Nat :=
  { m with pendingFutures := m.pendingFutures.erase request }

/-- `_apply_command`; a `no_op` does nothing. -/
def applyEntry (m : LockManager Client Resource Nat) (now : Rat)
    (entry : LogEntry Id (LockCommand Client Resource Nat)) : LockManager Client Resource Nat :=
  match entry.command with
  | .noOp _ => m
  | .client command => m.applyCommand now command

end LockManager

def internal {Cmd : Type} : Action Id Cmd → Bool
  | .electionTimeout _ | .heartbeat _ | .runTask _ _ | .deliver _ => true
  | .propose _ _ | .finishPropose _ _ | .applyNext _ => false

namespace LockCluster

def setManager (s : LockCluster Id Addr Client Resource) (n : Id)
    (m : LockManager Client Resource Nat) : LockCluster Id Addr Client Resource :=
  { s with managers := Function.update s.managers n m }

def awaiting (s : LockCluster Id Addr Client Resource) (n : Id) (future : Nat) :
    Option (AcquireCall Id Client Resource) :=
  s.acquires.find? fun a =>
    a.node = n ∧ (a.phase = .proposing future ∨ a.phase = .cancelling future)

def resume (s : LockCluster Id Addr Client Resource) (a : AcquireCall Id Client Resource)
    (phase : Phase) : LockCluster Id Addr Client Resource :=
  { s with acquires := s.acquires.erase a ++ [{ a with phase := phase }] }

def answer (s : LockCluster Id Addr Client Resource) (a : AcquireCall Id Client Resource)
    (status : LockStatus) : LockCluster Id Addr Client Resource :=
  { s with acquires := s.acquires.erase a, returned := (a.request, status) :: s.returned }

/-- `acquire` up to its first suspension. -/
def acquire (s : LockCluster Id Addr Client Resource) (n : Id) (client : Client)
    (resource : Resource) (lockType : LockType) (timeout : Rat) :
    LockCluster Id Addr Client Resource :=
  let x := s.raft.nodes n
  let request : LockRequest Client Resource Nat :=
    { requestId := s.fresh
      clientId := client
      resourceId := resource
      lockType := lockType
      timeout := timeout }
  if x.state ≠ .leader then
    { s with returned := (request, .denied) :: s.returned, fresh := s.fresh + 1 }
  else
    { s.setManager n ((s.managers n).registerFuture request.requestId) with
      raft := s.raft.propose n (.acquire request)
      acquires := s.acquires ++ [{ node := n, request := request, phase := .proposing x.fresh }]
      fresh := s.fresh + 1 }

/-- A proposal on `n` ends, and so may the wait of the `acquire` that made it. -/
def finishPropose (s : LockCluster Id Addr Client Resource) (n : Id) (k : Nat) :
    Option (LockCluster Id Addr Client Resource) :=
  (s.raft.nodes n).calls[k]?.bind fun c =>
    (s.raft.finishPropose n k).map fun raft =>
      let t := { s with raft := raft }
      match s.awaiting n c.future with
      | none => t
      | some a =>
        match a.phase with
        | .proposing _ =>
          if c.resolved then t.resume a .waiting
          else (t.setManager n ((s.managers n).popFuture a.request.requestId)).answer a .denied
        | .waiting => t
        | .cancelling _ => t.answer a .denied

/-- The future of a waiting `acquire` has its result. -/
def wake (s : LockCluster Id Addr Client Resource) (j : Nat) :
    Option (LockCluster Id Addr Client Resource) :=
  s.acquires[j]?.bind fun a =>
    if a.phase = .waiting then
      ((s.managers a.node).results.get? a.request.requestId).map (s.answer a)
    else none

/-- The wait of an `acquire` times out, and it proposes a `lock_cancel`. -/
def waitTimeout (s : LockCluster Id Addr Client Resource) (j : Nat) :
    Option (LockCluster Id Addr Client Resource) :=
  s.acquires[j]?.bind fun a =>
    if a.phase = .waiting ∧ (s.managers a.node).results.get? a.request.requestId = none then
      let x := s.raft.nodes a.node
      let t := s.setManager a.node ((s.managers a.node).popFuture a.request.requestId)
      if x.state ≠ .leader then some (t.answer a .denied)
      else
        let cancel := .cancel a.request.requestId a.request.clientId a.request.resourceId
        some ({ t with raft := s.raft.propose a.node cancel }.resume a (.cancelling x.fresh))
    else none

def applyNext (s : LockCluster Id Addr Client Resource) (n : Id) (now : Rat) :
    Option (LockCluster Id Addr Client Resource) :=
  (s.raft.applyNext n).map fun raft =>
    { s with
      raft := raft
      managers :=
        match (s.raft.nodes n).applyNext.2 with
        | some entry => Function.update s.managers n ((s.managers n).applyEntry now entry)
        | none => s.managers }

def step (W : Wiring Id Addr) (s : LockCluster Id Addr Client Resource) :
    LockAction Id Client Resource → Option (LockCluster Id Addr Client Resource)
  | .raft a =>
    if internal a then (s.raft.step W a).map fun raft => { s with raft := raft } else none
  | .release n client resource =>
    some { s with raft := s.raft.propose n (.release client resource) }
  | .abort n client resource => some { s with raft := s.raft.propose n (.abort client resource) }
  | .acquire n client resource lockType timeout =>
    some (s.acquire n client resource lockType timeout)
  | .finishPropose n k => s.finishPropose n k
  | .wake j => s.wake j
  | .waitTimeout j => s.waitTimeout j
  | .applyNext n now => s.applyNext n now

end LockCluster

/-- The lock service on a cluster wired as `W`, started with no locks. -/
def service (W : Wiring Id Addr) (Client Resource : Type) [DecidableEq Client]
    [DecidableEq Resource] :
    System (LockCluster Id Addr Client Resource) (LockAction Id Client Resource) where
  init := { raft := (raft W _).init }
  step := LockCluster.step W

section Steps
variable {W : Wiring Id Addr} {s t : LockCluster Id Addr Client Resource}
  {a : LockAction Id Client Resource}

def denial (s : LockCluster Id Addr Client Resource) :
    LockAction Id Client Resource → Option (AcquireCall Id Client Resource)
  | .finishPropose n k =>
    (s.raft.nodes n).calls[k]?.bind fun c =>
      (s.awaiting n c.future).filter fun a =>
        match a.phase with
        | .proposing _ => !c.resolved
        | .waiting => false
        | .cancelling _ => true
  | .wake j =>
    s.acquires[j]?.filter fun a =>
      a.phase = .waiting ∧
        (s.managers a.node).results.get? a.request.requestId = some .denied
  | .waitTimeout j =>
    s.acquires[j]?.filter fun a =>
      a.phase = .waiting ∧ (s.managers a.node).results.get? a.request.requestId = none ∧
        (s.raft.nodes a.node).state ≠ .leader
  | _ => none

inductive LockTransition (W : Wiring Id Addr) (s : LockCluster Id Addr Client Resource) :
    LockAction Id Client Resource → LockCluster Id Addr Client Resource → Prop
  | raft (r : Action Id (LockCommand Client Resource Nat))
    (raft' : Cluster Id Addr (LockCommand Client Resource Nat)) (hi : internal r = true)
    (hs : (raft W _).step s.raft r = some raft') :
    LockTransition W s (.raft r) { s with raft := raft' }
  | release (n : Id) (client : Client) (resource : Resource) :
    LockTransition W s (.release n client resource)
      { s with raft := s.raft.propose n (.release client resource) }
  | abort (n : Id) (client : Client) (resource : Resource) :
    LockTransition W s (.abort n client resource)
      { s with raft := s.raft.propose n (.abort client resource) }
  | reject (n : Id) (client : Client) (resource : Resource) (lockType : LockType) (timeout : Rat) :
    LockTransition W s (.acquire n client resource lockType timeout)
      { s with
        returned := (⟨s.fresh, client, resource, lockType, timeout⟩, .denied) :: s.returned
        fresh := s.fresh + 1 }
  | acquire (n : Id) (client : Client) (resource : Resource) (lockType : LockType) (timeout : Rat) :
    LockTransition W s (.acquire n client resource lockType timeout)
      { s.setManager n ((s.managers n).registerFuture s.fresh) with
        raft := s.raft.propose n (.acquire ⟨s.fresh, client, resource, lockType, timeout⟩)
        acquires := s.acquires ++
          [⟨n, ⟨s.fresh, client, resource, lockType, timeout⟩, .proposing (s.raft.nodes n).fresh⟩]
        fresh := s.fresh + 1 }
  | finish (n : Id) (k : Nat) (raft' : Cluster Id Addr (LockCommand Client Resource Nat))
    (hs : s.raft.finishPropose n k = some raft') :
    LockTransition W s (.finishPropose n k) { s with raft := raft' }
  | commit (n : Id) (k : Nat) (raft' : Cluster Id Addr (LockCommand Client Resource Nat))
    (hs : s.raft.finishPropose n k = some raft') (c : AcquireCall Id Client Resource)
    (hc : c ∈ s.acquires) :
    LockTransition W s (.finishPropose n k) ({ s with raft := raft' }.resume c .waiting)
  | deny (n : Id) (k : Nat) (raft' : Cluster Id Addr (LockCommand Client Resource Nat))
    (hs : s.raft.finishPropose n k = some raft') (c : AcquireCall Id Client Resource)
    (hc : c ∈ s.acquires) (hd : denial s (.finishPropose n k) = some c)
    (m : LockManager Client Resource Nat)
    (hm : m = s.managers n ∨ m = (s.managers n).popFuture c.request.requestId) :
    LockTransition W s (.finishPropose n k)
      (({ s with raft := raft' }.setManager n m).answer c .denied)
  | wake (j : Nat) (c : AcquireCall Id Client Resource) (hc : c ∈ s.acquires) (status : LockStatus)
    (hd : status = .denied → denial s (.wake j) = some c) :
    LockTransition W s (.wake j) (s.answer c status)
  | giveUp (j : Nat) (c : AcquireCall Id Client Resource) (hc : c ∈ s.acquires)
    (hd : denial s (.waitTimeout j) = some c) :
    LockTransition W s (.waitTimeout j)
      ((s.setManager c.node ((s.managers c.node).popFuture c.request.requestId)).answer c .denied)
  | cancel (j : Nat) (c : AcquireCall Id Client Resource) (hc : c ∈ s.acquires) :
    LockTransition W s (.waitTimeout j)
      ({ s.setManager c.node ((s.managers c.node).popFuture c.request.requestId) with
        raft := s.raft.propose c.node
          (.cancel c.request.requestId c.request.clientId c.request.resourceId) }.resume c
            (.cancelling (s.raft.nodes c.node).fresh))
  | apply (n : Id) (now : Rat) (raft' : Cluster Id Addr (LockCommand Client Resource Nat))
    (hs : s.raft.applyNext n = some raft') :
    LockTransition W s (.applyNext n now)
      { s with
        raft := raft'
        managers :=
          match (s.raft.nodes n).applyNext.2 with
          | some entry => Function.update s.managers n ((s.managers n).applyEntry now entry)
          | none => s.managers }

theorem service_cases (h : (service W Client Resource).step s a = some t) :
    LockTransition W s a t := by
  cases a with
  | raft r =>
    simp only [service, LockCluster.step] at h
    split at h
    · rename_i hi
      obtain ⟨raft', hs, rfl⟩ := Option.map_eq_some_iff.mp h
      exact .raft r raft' hi hs
    · cases h
  | release n client resource =>
    cases h
    exact .release n client resource
  | abort n client resource =>
    cases h
    exact .abort n client resource
  | acquire n client resource lockType timeout =>
    simp only [service, LockCluster.step, LockCluster.acquire, Option.some.injEq] at h
    subst h
    split
    · exact .reject n client resource lockType timeout
    · exact .acquire n client resource lockType timeout
  | finishPropose n k =>
    simp only [service, LockCluster.step, LockCluster.finishPropose] at h
    obtain ⟨c, hk, h⟩ := Option.bind_eq_some_iff.mp h
    obtain ⟨raft', hs, rfl⟩ := Option.map_eq_some_iff.mp h
    cases hw : s.awaiting n c.future with
    | none => exact .finish n k raft' hs
    | some call =>
      have hc : call ∈ s.acquires := List.mem_of_find?_eq_some hw
      have hd (hb : (match call.phase with
          | .proposing _ => !c.resolved
          | .waiting => false
          | .cancelling _ => true) = true) : denial s (.finishPropose n k) = some call := by
        simp only [denial, hk, Option.bind_some, hw]
        exact Option.filter_some_pos hb
      dsimp only
      cases hp : call.phase with
      | proposing future =>
        dsimp only
        split
        · exact .commit n k raft' hs call hc
        · rename_i hr
          exact .deny n k raft' hs call hc (hd (by simp [hp, hr])) _ (.inr rfl)
      | waiting => exact .finish n k raft' hs
      | cancelling future =>
        have hsame : s.managers = Function.update s.managers n (s.managers n) := by simp
        have hden := hd (by simp [hp])
        have ht := LockTransition.deny (W := W) n k raft' hs call hc hden _ (.inl rfl)
        rwa [LockCluster.setManager, ← hsame] at ht
  | wake j =>
    simp only [service, LockCluster.step, LockCluster.wake] at h
    obtain ⟨call, hj, h⟩ := Option.bind_eq_some_iff.mp h
    split at h
    · rename_i hp
      obtain ⟨status, hr, rfl⟩ := Option.map_eq_some_iff.mp h
      refine .wake j call (List.mem_of_getElem? hj) status fun hst => ?_
      subst hst
      simp only [denial, hj]
      exact Option.filter_some_pos (by simp [hp, hr])
    · cases h
  | waitTimeout j =>
    simp only [service, LockCluster.step, LockCluster.waitTimeout] at h
    obtain ⟨call, hj, h⟩ := Option.bind_eq_some_iff.mp h
    split at h
    · rename_i hp
      split at h
      · rename_i hx
        cases h
        refine .giveUp j call (List.mem_of_getElem? hj) ?_
        simp only [denial, hj]
        exact Option.filter_some_pos (by simp [hp, hx])
      · cases h
        exact .cancel j call (List.mem_of_getElem? hj)
    · cases h
  | applyNext n now =>
    simp only [service, LockCluster.step, LockCluster.applyNext] at h
    obtain ⟨raft', hs, rfl⟩ := Option.map_eq_some_iff.mp h
    exact .apply n now raft' hs

end Steps
end DistSync.Locking
