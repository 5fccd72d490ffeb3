import DistSync.Locking.Denial

/-! Replicas. A command acts alike on all managers, whatever their clocks say and whoever waits
there for an answer. So the managers of a cluster that have applied as many entries have the
same locks with the same queues, and one that is behind has what the others had. -/
namespace DistSync.Locking
open Raft

section Manager
variable {Client Resource Request : Type}
  [DecidableEq Client] [DecidableEq Resource] [DecidableEq Request]

def LockEvent.timeless :
    LockEvent Client Resource Request → LockEvent Client Resource Request
  | .granted req _ => .granted req 0
  | .queued req => .queued req
  | .released client resource => .released client resource
  | .cancelled q resource => .cancelled q resource

/-- What a manager has in common with the others: all but its clock readings and the futures of
its own callers. -/
def LockManager.replica (m : LockManager Client Resource Request) :
    LockManager Client Resource Request where
  locks := m.locks.mapValues fun l => { l with acquiredAt := 0 }
  clientLocks := m.clientLocks
  wfg := m.wfg
  history := m.history.map LockEvent.timeless

variable (m : LockManager Client Resource Request) (now : Rat) (q : Request) (r : Resource)
  (req : LockRequest Client Resource Request)

omit [DecidableEq Client] [DecidableEq Resource] in
@[simp] theorem replica_resolveFuture (status : LockStatus) :
    (m.resolveFuture q status).replica = m.replica := by
  unfold LockManager.resolveFuture
  split <;> rfl

omit [DecidableEq Client] [DecidableEq Resource] in
variable {m q} in
theorem resolveFuture_of_idle (h : m.pendingFutures = ∅) (status : LockStatus) :
    m.resolveFuture q status = m :=
  if_neg (h ▸ Finset.notMem_empty q)

omit [DecidableEq Client] [DecidableEq Request] in
theorem get?_replica (r : Resource) : m.replica.locks.get? r =
    (m.locks.get? r).map fun l => { l with acquiredAt := 0 } := Dict.get?_mapValues ..

omit [DecidableEq Client] [DecidableEq Request] in
theorem lockFor_replica :
    m.replica.lockFor 0 req = { m.lockFor now req with acquiredAt := 0 } := by
  unfold LockManager.lockFor
  rw [get?_replica]
  cases m.locks.get? req.resourceId <;> rfl

theorem replica_applyAcquire :
    (m.applyAcquire now req).replica = m.replica.applyAcquire 0 req := by
  have hcan : Lock.canAcquire { m.lockFor now req with acquiredAt := 0 } req.lockType ↔
      (m.lockFor now req).canAcquire req.lockType := by
    cases req.lockType <;> exact Iff.rfl
  unfold LockManager.applyAcquire
  rw [lockFor_replica m now]
  by_cases hc : (m.lockFor now req).canAcquire req.lockType
  · simp only [if_pos hc, if_pos (hcan.mpr hc), replica_resolveFuture]
    rw [resolveFuture_of_idle rfl, LockManager.replica, Dict.mapValues_set]
    rfl
  · simp only [if_neg hc, if_neg (mt hcan.mp hc)]
    rw [LockManager.replica, Dict.mapValues_set]
    rfl

omit [DecidableEq Client] [DecidableEq Request] in
@[simp] theorem waitersOf_replica : m.replica.waitersOf r = m.waitersOf r := by
  unfold LockManager.waitersOf
  rw [get?_replica]
  cases m.locks.get? r <;> rfl

omit [DecidableEq Client] [DecidableEq Request] in
@[simp] theorem replica_popWaiter : (m.popWaiter r).replica = m.replica.popWaiter r := by
  unfold LockManager.popWaiter
  rw [get?_replica]
  cases m.locks.get? r with
  | none => rfl
  | some lock =>
    dsimp only [Option.map_some]
    rw [LockManager.replica, Dict.mapValues_set]
    rfl

theorem replica_grantShared (turns : Nat) : (LockManager.grantShared now r turns m).replica =
    LockManager.grantShared 0 r turns m.replica := by
  induction turns generalizing m with
  | zero => rfl
  | succ turns ih =>
    unfold LockManager.grantShared
    rw [waitersOf_replica]
    cases m.waitersOf r with
    | nil => rfl
    | cons w ws =>
      dsimp only
      split
      · rw [ih, replica_applyAcquire, replica_popWaiter]
      · rfl

theorem replica_grantNext : (m.grantNext now r).replica = m.replica.grantNext 0 r := by
  unfold LockManager.grantNext
  rw [waitersOf_replica]
  cases m.waitersOf r with
  | nil => rfl
  | cons w ws =>
    dsimp only
    cases w.lockType with
    | exclusive => rw [replica_applyAcquire, replica_popWaiter]
    | shared => exact replica_grantShared m now r _

omit [DecidableEq Request] in
theorem replica_drop (client : Client) (lock : Lock Client Resource Request) :
    (m.drop client lock r).replica = m.replica.drop client { lock with acquiredAt := 0 } r := by
  rw [LockManager.drop, LockManager.replica, Dict.mapValues_set]
  rfl

theorem replica_applyRelease (client : Client) :
    (m.applyRelease now client r).replica = m.replica.applyRelease 0 client r := by
  have hl := get?_replica m r
  cases hr : m.locks.get? r with
  | none =>
    rw [hr] at hl
    simp only [LockManager.applyRelease, hr, hl, Option.map_none]
  | some lock =>
    rw [hr] at hl
    rw [applyRelease_of_held hr, applyRelease_of_held hl, ← replica_drop]
    dsimp only
    split
    · exact replica_grantNext ..
    · split
      · rw [LockManager.replica, Dict.mapValues_erase]
        rfl
      · rfl

omit [DecidableEq Client] in
theorem replica_applyCancel : (m.applyCancel q r).replica = m.replica.applyCancel q r := by
  unfold LockManager.applyCancel
  rw [replica_resolveFuture, resolveFuture_of_idle rfl, get?_replica, LockManager.replica]
  cases m.locks.get? r with
  | none => rfl
  | some lock =>
    dsimp only [Option.map_some]
    rw [Dict.mapValues_set]
    rfl

theorem replica_applyCommand (cmd : LockCommand Client Resource Request) :
    (m.applyCommand now cmd).replica = m.replica.applyCommand 0 cmd := by
  cases cmd with
  | acquire req => exact replica_applyAcquire m now req
  | release client r => exact replica_applyRelease m now r client
  | cancel q client r => exact replica_applyCancel m q r
  | abort client r => exact replica_applyRelease m now r client

end Manager

section Cluster
variable {Id Addr Client Resource : Type}
  [DecidableEq Id] [DecidableEq Addr] [DecidableEq Client] [DecidableEq Resource]
variable {W : Wiring Id Addr} {s t : LockCluster Id Addr Client Resource}
  {a : LockAction Id Client Resource}

omit [DecidableEq Id] in
theorem replica_applyEntry (m : LockManager Client Resource Nat) (now : Rat)
    (e : LogEntry Id (LockCommand Client Resource Nat)) :
    (m.applyEntry now e).replica = m.replica.applyEntry 0 e := by
  unfold LockManager.applyEntry
  cases e.command with
  | noOp n => rfl
  | client cmd => exact replica_applyCommand m now cmd

omit [DecidableEq Id] in
theorem replayed_append (l l' : List (LogEntry Id (LockCommand Client Resource Nat))) :
    replayed (l ++ l') = l'.foldl (fun m e => m.applyEntry 0 e) (replayed l) := List.foldl_append

theorem LockTransition.manager (h : LockTransition W s a t) (n : Id) :
    (∃ now entry, a = .applyNext n now ∧ (s.raft.nodes n).applyNext.2 = some entry ∧
      t.managers n = (s.managers n).applyEntry now entry) ∨
    ((∃ futures, t.managers n = { s.managers n with pendingFutures := futures }) ∧
      ∀ now, a = .applyNext n now → (s.raft.nodes n).applyNext.2 = none) := by
  have hset {k : Id} {m : LockManager Client Resource Nat}
      (hm : ∃ futures, m = { s.managers k with pendingFutures := futures }) :
      ∃ futures, Function.update s.managers k m n =
        { s.managers n with pendingFutures := futures } := by
    by_cases hn : n = k
    · subst hn
      rwa [Function.update_self]
    · rw [Function.update_of_ne hn]
      exact ⟨_, rfl⟩
  cases h with
  | acquire k client resource lockType timeout => exact .inr ⟨hset ⟨_, rfl⟩, by simp⟩
  | deny k i raft' hs c hc hd m hm =>
    refine .inr ⟨hset ?_, by simp⟩
    cases hm with
    | inl hm => exact ⟨_, hm⟩
    | inr hm => exact ⟨_, hm⟩
  | giveUp j c hc hd => exact .inr ⟨hset ⟨_, rfl⟩, by simp⟩
  | cancel j c hc => exact .inr ⟨hset ⟨_, rfl⟩, by simp⟩
  | apply k now raft' hs =>
    cases he : (s.raft.nodes k).applyNext.2 with
    | none =>
      refine .inr ⟨⟨_, rfl⟩, fun now' hn => ?_⟩
      cases hn
      exact he
    | some entry =>
      by_cases hn : n = k
      · subst hn
        exact .inl ⟨now, entry, rfl, he, Function.update_self ..⟩
      · refine .inr ⟨⟨_, Function.update_of_ne hn ..⟩, fun now' hn' => ?_⟩
        cases hn'
        exact absurd rfl hn
  | _ => exact .inr ⟨⟨_, rfl⟩, by simp⟩

def SafeRaft (W : Wiring Id Addr) (s : LockCluster Id Addr Client Resource) :
    LockAction Id Client Resource → Prop
  | .raft r => SafeStep W s.raft r
  | _ => True

instance [Fintype Id] (W : Wiring Id Addr) (s : LockCluster Id Addr Client Resource) :
    (a : LockAction Id Client Resource) → Decidable (SafeRaft W s a)
  | .raft _ => inferInstanceAs (Decidable (SafeStep _ _ _))
  | .release _ _ _ => inferInstanceAs (Decidable True)
  | .abort _ _ _ => inferInstanceAs (Decidable True)
  | .acquire _ _ _ _ _ => inferInstanceAs (Decidable True)
  | .finishPropose _ _ => inferInstanceAs (Decidable True)
  | .wake _ => inferInstanceAs (Decidable True)
  | .waitTimeout _ => inferInstanceAs (Decidable True)
  | .applyNext _ _ => inferInstanceAs (Decidable True)

theorem safeRaft_reach (h : (service W Client Resource).Reach (SafeRaft W) s) :
    (Raft.raft W _).Reach (SafeStep W) s.raft := by
  refine h.simulates (f := LockCluster.raft) rfl fun s a t hg hs => ?_
  refine (service_cases hs).raft_step.imp_right fun hr => ?_
  obtain ⟨r, hr⟩ := hr
  refine ⟨r, ?_, hr.step⟩
  cases hr.internal with
  | inl ha =>
    subst ha
    exact hg
  | inr hi => exact safeStep_of_not_internal hi s.raft

/-- A manager is, up to what is its own, what a replay of its applied entries makes of nothing. -/
theorem replica_eq_replayed (hW : W.Complete)
    (h : (service W Client Resource).Reach (SafeRaft W) s) (n : Id) :
    (s.managers n).replica = replayed (applied s n) := by
  refine h.invariant (I := fun s => (s.managers n).replica = replayed (applied s n)) rfl
    fun s a t hr hi _ hs => ?_
  have ht := service_cases hs
  have hraft := safeRaft_reach hr
  have hM := MachineInv.reach hW hraft (disciplined_of_safeStep hW hraft)
  rcases ht.applied_cases hM n with ⟨hne, happ⟩ | ⟨now, e, rfl, he, happ⟩
  · rcases ht.manager n with ⟨now, entry, ha, -⟩ | ⟨⟨futures, hm⟩, -⟩
    · exact absurd ha (hne now)
    · rw [hm, happ]
      exact hi
  · rcases ht.manager n with ⟨now', entry, -, hentry, hm⟩ | ⟨-, hnone⟩
    · cases he.symm.trans hentry
      rw [hm, happ, replica_applyEntry, hi]
      exact (replayed_append (applied s n) [e]).symm
    · cases he.symm.trans (hnone now rfl)

theorem applied_length (hW : W.Complete)
    (h : (service W Client Resource).Reach (SafeRaft W) s) (n : Id) :
    (applied s n).length = (s.raft.nodes n).lastApplied := by
  have hraft := safeRaft_reach h
  have hM := MachineInv.reach hW hraft (disciplined_of_safeStep hW hraft)
  simpa [applied] using congrArg List.length (hM.applied n).1

theorem applied_isPrefix (hW : W.Complete)
    (h : (service W Client Resource).Reach (SafeRaft W) s) {p q : Id}
    (hpq : (s.raft.nodes p).lastApplied ≤ (s.raft.nodes q).lastApplied) :
    applied s p <+: applied s q := by
  have hp := applied_length hW h p
  have hq := applied_length hW h q
  have hraft := safeRaft_reach h
  have hdisc := disciplined_of_safeStep hW hraft
  have hsafe := (MachineInv.reach hW hraft hdisc).stateMachineSafe hW (.reach hraft)
    (.reach hraft hdisc.elections) (.reach hraft hdisc) (.reach hraft hdisc) hdisc.elections
  cases hsafe.comparable p q with
  | inl hpre => exact hpre
  | inr hpre =>
    have heq : applied s q = applied s p := List.IsPrefix.eq_of_length_le hpre (by omega)
    rw [heq]

/-- The managers of a cluster agree: a node that has applied more than another has what becomes
of the other's locks, books and wait-for graph when the entries are applied that it lacks. -/
theorem replicas_agree (hW : W.Complete)
    (h : (service W Client Resource).Reach (SafeRaft W) s) (p q : Id)
    (hpq : (s.raft.nodes p).lastApplied ≤ (s.raft.nodes q).lastApplied) :
    (s.managers q).replica = (((s.raft.nodes q).log.take (s.raft.nodes q).lastApplied).drop
      (s.raft.nodes p).lastApplied).foldl (fun m e => m.applyEntry 0 e) (s.managers p).replica := by
  have hraft := safeRaft_reach h
  have hM := MachineInv.reach hW hraft (disciplined_of_safeStep hW hraft)
  obtain ⟨rest, hrest⟩ := applied_isPrefix hW h hpq
  have hlog : applied s q = (s.raft.nodes q).log.take (s.raft.nodes q).lastApplied :=
    (hM.applied q).2
  have hdrop : ((s.raft.nodes q).log.take (s.raft.nodes q).lastApplied).drop
      (s.raft.nodes p).lastApplied = rest := by
    rw [← hlog, ← hrest, ← applied_length hW h p, List.drop_left]
  rw [replica_eq_replayed hW h p, replica_eq_replayed hW h q, hdrop, ← hrest]
  exact replayed_append ..

/-- Node 0 has applied the acquires of clients 7 and 8, node 1 only that of client 7, at its own
time. -/
def behind : List (LockAction (Fin 3) Nat Nat) :=
  cancelled ++ [.applyNext 1 6, .applyNext 1 9]

theorem replicas_agree_behind :
    ∃ s, (service (mesh 3) Nat Nat).runIf (SafeRaft (mesh 3)) (service (mesh 3) Nat Nat).init
        behind = some s ∧
      (s.raft.nodes 1).lastApplied = 2 ∧ (s.raft.nodes 0).lastApplied = 3 ∧
      (s.managers 0).replica = (((s.raft.nodes 0).log.take (s.raft.nodes 0).lastApplied).drop
        (s.raft.nodes 1).lastApplied).foldl (fun m e => m.applyEntry 0 e)
          (s.managers 1).replica := by
  have hrun : ((service (mesh 3) Nat Nat).runIf (SafeRaft (mesh 3))
      (service (mesh 3) Nat Nat).init behind).any (fun s =>
        (s.raft.nodes 1).lastApplied = 2 ∧ (s.raft.nodes 0).lastApplied = 3) = true := by
    decide +kernel
  obtain ⟨s, hs, hl⟩ := (Option.any_eq_true ..).mp hrun
  obtain ⟨h1, h0⟩ := of_decide_eq_true hl
  refine ⟨s, hs, h1, h0, ?_⟩
  exact replicas_agree (mesh_complete 3) (System.Reach.init.runIf hs) 1 0 (by rw [h1, h0]; decide)

end Cluster
end DistSync.Locking
