import DistSync.ReadersWriter
import DistSync.Locking.Replica

/-! The history of a resource as the log of a readers-writer lock. Whoever applies commands to a
manager, and whenever, each grant in its history was legal when it was made. -/
namespace DistSync.Locking
open Raft

section Manager
variable {Client Resource Request : Type}
  [DecidableEq Client] [DecidableEq Resource] [DecidableEq Request]

/-- `P` is kept by what requests and releases are made of. -/
structure KeepsServing (P : LockManager Client Resource Request → Prop) : Prop where
  acquire {m : LockManager Client Resource Request} (h : P m) (now : Rat)
    (req : LockRequest Client Resource Request) : P (m.applyAcquire now req)
  pop {m : LockManager Client Resource Request} (h : P m) (r : Resource) : P (m.popWaiter r)
  drop {m : LockManager Client Resource Request} {r : Resource}
    {l : Lock Client Resource Request} (h : P m) (hl : m.locks.get? r = some l) (client : Client) :
    P (m.drop client l r)
  erase {m : LockManager Client Resource Request} {r : Resource}
    {l : Lock Client Resource Request} (h : P m) (hl : m.locks.get? r = some l)
    (hnone : l.holderIds = ∅) : P { m with locks := m.locks.erase r }

structure Keeps (P : LockManager Client Resource Request → Prop) : Prop extends KeepsServing P where
  cancel {m : LockManager Client Resource Request} (h : P m) (q : Request) (r : Resource) :
    P (m.applyCancel q r)

section Keeps
variable {P : LockManager Client Resource Request → Prop} {m : LockManager Client Resource Request}

namespace KeepsServing
variable (hP : KeepsServing P)
include hP

theorem grantShared (h : P m) (now : Rat) (r : Resource) (turns : Nat) :
    P (LockManager.grantShared now r turns m) := by
  induction turns generalizing m with
  | zero => exact h
  | succ turns ih =>
    unfold LockManager.grantShared
    split
    · exact h
    · split
      · exact ih (hP.acquire (hP.pop h r) now _)
      · exact h

theorem grantNext (h : P m) (now : Rat) (r : Resource) : P (m.grantNext now r) := by
  unfold LockManager.grantNext
  split
  · exact h
  · split
    · exact hP.acquire (hP.pop h r) now _
    · exact hP.grantShared h now r _

theorem applyRelease (h : P m) (now : Rat) (client : Client) (r : Resource) :
    P (m.applyRelease now client r) := by
  cases hl : m.locks.get? r with
  | none =>
    unfold LockManager.applyRelease
    rwa [hl]
  | some l =>
    rw [applyRelease_of_held hl]
    have hdrop := hP.drop h hl client
    split
    · exact hP.grantNext hdrop now r
    · split
      · exact hP.erase hdrop (drop_lock client l) ‹_›
      · exact hdrop

end KeepsServing

theorem Keeps.applyCommand (hP : Keeps P) (h : P m) (now : Rat)
    (cmd : LockCommand Client Resource Request) : P (m.applyCommand now cmd) := by
  cases cmd with
  | acquire req => exact hP.acquire h now req
  | release client r => exact hP.applyRelease h now client r
  | cancel q client r => exact hP.cancel h q r
  | abort client r => exact hP.applyRelease h now client r

end Keeps

def LockEvent.passing (r : Resource) : LockEvent Client Resource Request → Option (Passing Client)
  | .granted req _ =>
    if req.resourceId = r then some (.grant req.clientId (req.lockType = .exclusive)) else none
  | .queued _ => none
  | .released client resource => if resource = r then some (.release client) else none
  | .cancelled _ _ => none

def timeline (r : Resource) (h : List (LockEvent Client Resource Request)) :
    List (Passing Client) :=
  h.filterMap (LockEvent.passing r)

omit [DecidableEq Client] [DecidableEq Request] in
theorem timeline_append (r : Resource) (h h' : List (LockEvent Client Resource Request)) :
    timeline r (h ++ h') = timeline r h ++ timeline r h' := List.filterMap_append

omit [DecidableEq Client] [DecidableEq Request] in
theorem timeline_granted {r : Resource} {req : LockRequest Client Resource Request}
    (hr : req.resourceId = r) (now : Rat) (h : List (LockEvent Client Resource Request)) :
    timeline r (.granted req now :: h) =
      .grant req.clientId (req.lockType = .exclusive) :: timeline r h := by
  simp [timeline, LockEvent.passing, hr]

def LockManager.holding (m : LockManager Client Resource Request) (r : Resource) (c : Client) :
    Option Bool :=
  (m.locks.get? r).bind fun l =>
    if c ∈ l.holderIds then some (l.lockType = .exclusive) else none

/-- The history of every resource is legal, and leaves its lock held as it is. -/
def LockManager.Timely (m : LockManager Client Resource Request) : Prop :=
  ∀ r, Passing.Legal (timeline r m.history) ∧
    ∀ c, Passing.holds (timeline r m.history) c = m.holding r c

variable {m m' : LockManager Client Resource Request} {now : Rat} {r : Resource}

omit [DecidableEq Request] in
theorem LockManager.Timely.of_same (h : m.Timely)
    (hh : ∀ r, timeline r m'.history = timeline r m.history)
    (hl : ∀ r c, m'.holding r c = m.holding r c) : m'.Timely := by
  intro r
  obtain ⟨hlegal, hholds⟩ := h r
  rw [hh r]
  exact ⟨hlegal, fun c => (hholds c).trans (hl r c).symm⟩

theorem LockManager.Timely.resolveFuture (h : m.Timely) (q : Request) (status : LockStatus) :
    (m.resolveFuture q status).Timely :=
  h.of_same (by simp) (by simp [LockManager.holding])

omit [DecidableEq Request] in
theorem holding_set (l : Lock Client Resource Request) {r' : Resource} {c : Client}
    (hm : m'.locks = m.locks.set r l) : m'.holding r' c =
      if r = r' then if c ∈ l.holderIds then some (decide (l.lockType = .exclusive)) else none
      else m.holding r' c := by
  unfold LockManager.holding
  rw [hm, Dict.get?_set]
  by_cases hr : r = r' <;> simp [hr]

omit [DecidableEq Request] in
theorem holding_lockFor (m : LockManager Client Resource Request) (now : Rat)
    (req : LockRequest Client Resource Request) (c : Client) :
    m.holding req.resourceId c = if c ∈ (m.lockFor now req).holderIds then
      some (decide ((m.lockFor now req).lockType = .exclusive)) else none := by
  unfold LockManager.holding LockManager.lockFor
  cases m.locks.get? req.resourceId <;> simp

omit [DecidableEq Client] [DecidableEq Resource] [DecidableEq Request] in
theorem canAcquire_iff (l : Lock Client Resource Request) (t : LockType) :
    l.canAcquire t ↔ ∀ c ∈ l.holderIds, t = .shared ∧ l.lockType = .shared := by
  cases t with
  | shared =>
    simp only [Lock.canAcquire, Lock.canAcquireShared, true_and, Finset.eq_empty_iff_forall_notMem]
    constructor
    · exact fun h c hc => h.resolve_right fun hnone => hnone c hc
    · intro h
      by_cases hnone : ∃ c, c ∈ l.holderIds
      · obtain ⟨c, hc⟩ := hnone
        exact .inl (h c hc)
      · exact .inr (not_exists.mp hnone)
  | exclusive =>
    simp [Lock.canAcquire, Lock.canAcquireExclusive, Finset.eq_empty_iff_forall_notMem]

theorem LockManager.Timely.applyAcquire (h : m.Timely) (now : Rat)
    (req : LockRequest Client Resource Request) : (m.applyAcquire now req).Timely := by
  have hnow := holding_lockFor m now req
  unfold LockManager.applyAcquire
  dsimp only
  split
  · rename_i hcan
    refine LockManager.Timely.resolveFuture (fun r => ?_) _ _
    by_cases hr : req.resourceId = r
    · subst hr
      obtain ⟨hlegal, hholds⟩ := h req.resourceId
      rw [timeline_granted rfl]
      refine ⟨⟨hlegal, fun c y hy => ?_⟩, fun c => ?_⟩
      · rw [hholds, hnow] at hy
        obtain ⟨hc, hy⟩ := Option.ite_none_right_eq_some.mp hy
        obtain ⟨ht, hl⟩ := (canAcquire_iff _ _).mp hcan c hc
        rw [hl] at hy
        cases hy
        exact ⟨by rw [ht]; rfl, rfl⟩
      · rw [holding_set _ rfl, if_pos rfl, Passing.holds, hholds, hnow]
        by_cases hc : req.clientId = c
        · simp [hc]
        · simp only [if_neg hc, Finset.mem_insert, Ne.symm hc, false_or]
          refine ite_congr rfl (fun hmem => ?_) fun _ => rfl
          obtain ⟨ht, hl⟩ := (canAcquire_iff _ _).mp hcan c hmem
          rw [ht, hl]
    · obtain ⟨hlegal, hholds⟩ := h r
      have hline : timeline r (.granted req now :: m.history) = timeline r m.history := by
        simp [timeline, LockEvent.passing, hr]
      rw [hline]
      exact ⟨hlegal, fun c => by rw [holding_set _ rfl, if_neg hr, hholds]⟩
  · refine h.of_same (fun r => rfl) fun r c => ?_
    rw [holding_set _ rfl]
    by_cases hr : req.resourceId = r
    · subst hr
      rw [if_pos rfl, hnow]
    · rw [if_neg hr]

omit [DecidableEq Request] in
theorem LockManager.Timely.popWaiter (h : m.Timely) (r : Resource) : (m.popWaiter r).Timely := by
  unfold LockManager.popWaiter
  split
  · rename_i lock hl
    refine h.of_same (fun _ => rfl) fun r' c => ?_
    rw [holding_set _ rfl]
    split
    · rename_i hr
      subst hr
      simp [LockManager.holding, hl]
    · rfl
  · exact h

omit [DecidableEq Request] in
theorem LockManager.Timely.drop (h : m.Timely) {l : Lock Client Resource Request}
    (hl : m.locks.get? r = some l) (client : Client) : (m.drop client l r).Timely := by
  intro r'
  obtain ⟨hlegal, hholds⟩ := h r'
  by_cases hr : r = r'
  · subst hr
    have hline : timeline r (m.drop client l r).history =
        .release client :: timeline r m.history := by
      simp [timeline, LockManager.drop, LockEvent.passing]
    rw [hline]
    refine ⟨hlegal, fun c => ?_⟩
    rw [holding_set (m := m) _ rfl, if_pos rfl, Passing.holds, hholds]
    by_cases hc : client = c
    · simp [hc]
    · simp [LockManager.holding, hl, hc, Ne.symm hc]
  · have hline : timeline r' (m.drop client l r).history = timeline r' m.history := by
      simp [timeline, LockManager.drop, LockEvent.passing, hr]
    rw [hline]
    exact ⟨hlegal, fun c => by rw [holding_set (m := m) _ rfl, if_neg hr, hholds]⟩

omit [DecidableEq Request] in
theorem LockManager.Timely.erase (h : m.Timely) {l : Lock Client Resource Request}
    (hl : m.locks.get? r = some l) (hnone : l.holderIds = ∅) :
    LockManager.Timely { m with locks := m.locks.erase r } := by
  refine h.of_same (fun _ => rfl) fun r' c => ?_
  unfold LockManager.holding
  rw [Dict.get?_erase]
  by_cases hr : r' = r
  · subst hr
    simp [hl, hnone]
  · rw [if_neg hr]

theorem LockManager.Timely.applyCancel (h : m.Timely) (q : Request) (r : Resource) :
    (m.applyCancel q r).Timely := by
  unfold LockManager.applyCancel
  refine LockManager.Timely.resolveFuture ?_ _ _
  refine h.of_same (fun _ => rfl) fun r' c => ?_
  unfold LockManager.holding
  cases hl : m.locks.get? r with
  | none => rfl
  | some l =>
    dsimp only
    rw [Dict.get?_set]
    by_cases hr : r = r'
    · subst hr
      simp [hl]
    · rw [if_neg hr]

omit [DecidableEq Client] [DecidableEq Request] in
theorem released_of_release {c : Client} {h : List (LockEvent Client Resource Request)}
    (hc : .release c ∈ timeline r h) : .released c r ∈ h := by
  obtain ⟨e, he, hpass⟩ := List.mem_filterMap.mp hc
  cases e with
  | released client resource =>
    obtain ⟨rfl, hclient⟩ := Option.ite_none_right_eq_some.mp hpass
    cases hclient
    exact he
  | granted q t =>
    obtain ⟨-, hq⟩ := Option.ite_none_right_eq_some.mp hpass
    cases hq
  | queued q => cases hpass
  | cancelled q resource => cases hpass

omit [DecidableEq Request] in
/-- Between two grants of a resource one of which is exclusive, the client of the first has given
it back. -/
theorem LockManager.Timely.released_between (h : m.Timely)
    {req req' : LockRequest Client Resource Request} {now now' : Rat}
    {l₁ l₂ l₃ : List (LockEvent Client Resource Request)}
    (hh : m.history = l₁ ++ .granted req' now' :: (l₂ ++ .granted req now :: l₃))
    (hr : req'.resourceId = req.resourceId)
    (hx : req.lockType = .exclusive ∨ req'.lockType = .exclusive) :
    .released req.clientId req.resourceId ∈ l₂ := by
  have hlegal := (h req.resourceId).1
  rw [hh, timeline_append, timeline_granted hr, timeline_append, timeline_granted rfl] at hlegal
  exact released_of_release (hlegal.released_between (hx.imp (by simp) (by simp)))

theorem keeps_timely : Keeps fun m : LockManager Client Resource Request => m.Timely where
  acquire h now req := h.applyAcquire now req
  pop h r := h.popWaiter r
  drop h hl client := h.drop hl client
  erase h hl hnone := h.erase hl hnone
  cancel h q r := h.applyCancel q r

theorem timely_reach {guard : LockManager Client Resource Request →
      Rat × LockCommand Client Resource Request → Prop}
    (h : (manager Client Resource Request).Reach guard m) : m.Timely := by
  have hinit : (manager Client Resource Request).init.Timely := by
    intro r
    constructor
    · trivial
    · intro c
      rfl
  refine h.invariant (I := LockManager.Timely) hinit fun s cmd t _ hs _ ht => ?_
  cases ht
  exact keeps_timely.applyCommand hs cmd.1 cmd.2

end Manager

section Cluster
variable {Id Addr Client Resource : Type}
  [DecidableEq Id] [DecidableEq Addr] [DecidableEq Client] [DecidableEq Resource]
variable {W : Wiring Id Addr} {s : LockCluster Id Addr Client Resource}

omit [DecidableEq Id] in
theorem Keeps.applyEntry {P : LockManager Client Resource Nat → Prop} (hP : Keeps P)
    {m : LockManager Client Resource Nat} (h : P m) (now : Rat)
    (entry : LogEntry Id (LockCommand Client Resource Nat)) : P (m.applyEntry now entry) := by
  unfold LockManager.applyEntry
  cases entry.command with
  | noOp n => exact h
  | client cmd => exact hP.applyCommand h now cmd

/-- Each manager of a cluster does what a manager on its own does that is fed with the commands
applied there. -/
theorem manager_reach {guard : LockCluster Id Addr Client Resource →
      LockAction Id Client Resource → Prop}
    (h : (service W Client Resource).Reach guard s) (n : Id) :
    (manager Client Resource Nat).Reachable (s.managers n).replica := by
  refine h.simulates (N := manager Client Resource Nat) (f := fun s => (s.managers n).replica) rfl
    fun s a t _ hs => ?_
  rcases (service_cases hs).manager n with ⟨now, entry, -, -, hm⟩ | ⟨⟨futures, hm⟩, -⟩
  · rw [hm, replica_applyEntry]
    unfold LockManager.applyEntry
    cases entry.command with
    | noOp n => exact .inl rfl
    | client cmd => exact .inr ⟨(0, cmd), trivial, rfl⟩
  · rw [hm]
    exact .inl rfl

omit [DecidableEq Client] in
theorem timeline_timeless (r : Resource) (h : List (LockEvent Client Resource Nat)) :
    timeline r (h.map LockEvent.timeless) = timeline r h := by
  unfold timeline
  rw [List.filterMap_map]
  refine List.filterMap_congr fun e _ => ?_
  cases e <;> rfl

theorem holding_replica (m : LockManager Client Resource Nat) (r : Resource) (c : Client) :
    m.replica.holding r c = m.holding r c := by
  unfold LockManager.holding
  rw [get?_replica]
  cases m.locks.get? r <;> rfl

theorem timely_managers {guard : LockCluster Id Addr Client Resource →
      LockAction Id Client Resource → Prop}
    (h : (service W Client Resource).Reach guard s) (n : Id) : (s.managers n).Timely :=
  (timely_reach (manager_reach h n)).of_same (fun r => (timeline_timeless r _).symm)
    fun r c => (holding_replica _ r c).symm

/-- Between two grants of a resource one of which is exclusive, its manager saw a release by the
client of the first, in every run of the service. -/
theorem released_between_grants (h : (service W Client Resource).Reachable s) (n : Id)
    (req req' : LockRequest Client Resource Nat) (now now' : Rat)
    (l₁ l₂ l₃ : List (LockEvent Client Resource Nat))
    (hh : (s.managers n).history = l₁ ++ .granted req' now' :: (l₂ ++ .granted req now :: l₃))
    (hr : req'.resourceId = req.resourceId)
    (hx : req.lockType = .exclusive ∨ req'.lockType = .exclusive) :
    .released req.clientId req.resourceId ∈ l₂ :=
  (timely_managers h n).released_between hh hr hx

/-- Client 8 queues behind client 7, which then releases. -/
def passedOn : List (LockAction (Fin 3) Nat Nat) :=
  [.raft (.electionTimeout 0), .raft (.deliver 0), .raft (.deliver 0),
   .acquire 0 7 5 .exclusive 30, .acquire 0 8 5 .exclusive 30, .release 0 7 5,
   .raft (.runTask 0 0), .raft (.runTask 0 3), .raft (.deliver 1), .raft (.deliver 1),
   .applyNext 0 1, .applyNext 0 2, .applyNext 0 3, .applyNext 0 4]

theorem released_between_grants_passedOn :
    ∃ s, (service (mesh 3) Nat Nat).run (service (mesh 3) Nat Nat).init passedOn = some s ∧
      (s.managers 0).history =
        [.granted ⟨1, 8, 5, .exclusive, 30⟩ 4, .released 7 5, .queued ⟨1, 8, 5, .exclusive, 30⟩,
          .granted ⟨0, 7, 5, .exclusive, 30⟩ 2] ∧
      LockEvent.released 7 5 ∈
        ([.released 7 5, .queued ⟨1, 8, 5, .exclusive, 30⟩] : List (LockEvent Nat Nat Nat)) := by
  have hrun : ((service (mesh 3) Nat Nat).run (service (mesh 3) Nat Nat).init passedOn).any (fun s =>
      (s.managers 0).history =
        [.granted ⟨1, 8, 5, .exclusive, 30⟩ 4, .released 7 5, .queued ⟨1, 8, 5, .exclusive, 30⟩,
          .granted ⟨0, 7, 5, .exclusive, 30⟩ 2]) = true := by
    decide +kernel
  obtain ⟨s, hs, hl⟩ := (Option.any_eq_true ..).mp hrun
  have hh := of_decide_eq_true hl
  exact ⟨s, hs, hh, released_between_grants (System.reachable_run hs) 0 ⟨0, 7, 5, .exclusive, 30⟩
    ⟨1, 8, 5, .exclusive, 30⟩ 2 4 [] _ [] hh rfl (.inl rfl)⟩

end Cluster
end DistSync.Locking
