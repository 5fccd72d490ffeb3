import DistSync.Locking.Refinement

/-! Who holds what. A command takes a resource from at most the one client that it names, and
gives resources to the clients of the requests that it grants; the books that the manager keeps
by client and the history agree with its table on this. -/
namespace DistSync.Locking
variable {Client Resource Request : Type}
  [DecidableEq Client] [DecidableEq Resource] [DecidableEq Request]
variable {m : LockManager Client Resource Request} {T : Table Client Resource Request}
  {now : Rat} {r : Resource} {c : Client} {cmd : LockCommand Client Resource Request}

def LockManager.Holds (m : LockManager Client Resource Request) (c : Client) (r : Resource) :
    Prop :=
  ∃ l ∈ m.locks.get? r, c ∈ l.holderIds

instance (m : LockManager Client Resource Request) (c : Client) (r : Resource) :
    Decidable (m.Holds c r) := inferInstanceAs (Decidable (∃ l ∈ _, _))

def Table.Holds (T : Table Client Resource Request) (c : Client) (r : Resource) : Prop :=
  ∃ k, T r = some k ∧ c ∈ k.holders

def LockCommand.Frees (c : Client) (r : Resource) : LockCommand Client Resource Request → Prop
  | .acquire _ => False
  | .release client resource => client = c ∧ resource = r
  | .cancel _ _ _ => False
  | .abort client resource => client = c ∧ resource = r

omit [DecidableEq Client] [DecidableEq Request] in
theorem Refines.holds_iff (h : Refines m T) : m.Holds c r ↔ T.Holds c r := by
  constructor
  · intro hx
    obtain ⟨l, hl, hc⟩ := hx
    obtain ⟨k, hk, hs⟩ := h.lock hl
    exact ⟨k, hk, hs.holders ▸ hc⟩
  · intro hx
    obtain ⟨k, hk, hc⟩ := hx
    obtain ⟨l, hl, hs⟩ := h.held r k hk
    exact ⟨l, hl, hs.holders ▸ hc⟩

omit [DecidableEq Client] [DecidableEq Request] in
theorem Table.holds_update {r' : Resource} {v : Option (Held Client Resource Request r')} :
    Table.Holds (Function.update T r' v) c r ↔
      if r = r' then ∃ k, v = some k ∧ c ∈ k.holders else T.Holds c r := by
  unfold Table.Holds
  by_cases hr : r = r'
  · subst hr
    simp
  · simp [hr]

omit [DecidableEq Resource] [DecidableEq Request] in
theorem Table.holds_release (client : Client) (k : Held Client Resource Request r) :
    (∃ k', k.release client = some k' ∧ c ∈ k'.holders) ↔
      c ∈ k.holders ∧ client ≠ c ∨ ∃ w ∈ k.releaseGrants client, w.clientId = c := by
  rw [← mem_clients]
  cases hk : k.release client with
  | none =>
    have hempty : k.holders.erase client = ∅ := by
      by_contra hne
      rw [Held.release, dif_pos (Finset.nonempty_iff_ne_empty.mpr hne)] at hk
      cases hk
    have hnone : k.releaseGrants client = [] := by
      have hrest := Held.release_none hk
      have hfront := front_append k.waiters
      rw [Held.release, dif_neg (by simp [hempty])] at hk
      split at hk
      · cases hk
      · rename_i hw
        simp [Held.releaseGrants, hempty, not_not.mp hw, front]
    have hleft : ¬ (c ∈ k.holders ∧ client ≠ c) := by
      intro hx
      exact Finset.notMem_empty c (hempty ▸ Finset.mem_erase.mpr ⟨hx.2.symm, hx.1⟩)
    simp [hnone, hleft, clients]
  | some k' =>
    rw [show (∃ k'', some k' = some k'' ∧ c ∈ k''.holders) ↔ c ∈ k'.holders by simp,
      (Held.release_some hk).2, Finset.mem_union, Finset.mem_erase]
    exact or_congr_left (by rw [and_comm, ne_comm])

theorem Table.holds_apply : (T.apply cmd).Holds c r ↔
    T.Holds c r ∧ ¬ cmd.Frees c r ∨ ∃ w ∈ T.grants cmd, w.clientId = c ∧ w.resourceId = r := by
  have hrelease (client : Client) (r' : Resource) :
      Table.Holds (Function.update T r' ((T r').bind fun l => l.release client)) c r ↔
        T.Holds c r ∧ ¬ (client = c ∧ r' = r) ∨
          ∃ w ∈ ((T r').map fun l => l.releaseGrants client).getD [],
            w.clientId = c ∧ w.resourceId = r := by
    rw [holds_update]
    by_cases hr : r = r'
    · subst hr
      cases hT : T r with
      | none => simp [Table.Holds, hT]
      | some k =>
        have hfiled (w : LockRequest Client Resource Request) (hw : w ∈ k.releaseGrants client) :
            w.resourceId = r := k.resourceId_of_mem_grants hw
        simp only [if_true, Option.bind_some, holds_release, Table.Holds, hT, Option.map_some,
          Option.getD_some, Option.some.injEq, exists_eq_left', and_true]
        exact or_congr_right (exists_congr fun w => and_congr_right fun hw => by simp [hfiled w hw])
    · rw [if_neg hr]
      constructor
      · exact fun h => .inl ⟨h, fun he => hr he.2.symm⟩
      · intro h
        refine (h.resolve_right ?_).1
        intro hx
        obtain ⟨w, hw, -, hres⟩ := hx
        cases hT : T r' with
        | none => simp [hT] at hw
        | some k =>
          rw [hT] at hw
          exact hr (hres.symm.trans (k.resourceId_of_mem_grants hw))
  cases cmd with
  | acquire req =>
    simp only [apply, grants, holds_update, LockCommand.Frees, not_false_eq_true, and_true]
    by_cases hc : Held.Admits (T req.resourceId) req.lockType
    · simp only [if_pos hc, Held.acquire, List.mem_singleton, exists_eq_left]
      by_cases hr : r = req.resourceId
      · subst hr
        cases hT : T req.resourceId <;> simp [Held.grant, Table.Holds, hT, eq_comm, or_comm]
      · simp [hr, Ne.symm hr]
    · simp only [if_neg hc, Held.acquire, List.not_mem_nil, false_and, exists_false, or_false]
      by_cases hr : r = req.resourceId
      · subst hr
        cases hT : T req.resourceId with
        | none => exact absurd (fun l hl => by rw [hT] at hl; cases hl) hc
        | some k => simp [Held.queue, Table.Holds, hT]
      · simp [hr]
  | release client r' => exact hrelease client r'
  | cancel q client r' =>
    simp only [apply, grants, holds_update, LockCommand.Frees, not_false_eq_true, and_true,
      List.not_mem_nil, false_and, exists_false, or_false]
    by_cases hr : r = r'
    · subst hr
      cases hT : T r <;> simp [Held.cancel, Table.Holds, hT]
    · simp [hr]
  | abort client r' => exact hrelease client r'

def Table.records (T : Table Client Resource Request) :
    LockCommand Client Resource Request → List (LockEvent Client Resource Request)
  | .acquire req => if Held.Admits (T req.resourceId) req.lockType then [] else [.queued req]
  | .release client r => if (T r).isSome then [.released client r] else []
  | .cancel q _ r => [.cancelled q r]
  | .abort client r => if (T r).isSome then [.released client r] else []

section Step
variable (h : Refines m T)
include h

theorem Refines.history_apply (now : Rat) (cmd : LockCommand Client Resource Request) :
    (m.applyCommand now cmd).history =
      ((T.grants cmd).map fun req => .granted req now).reverse ++ (T.records cmd ++ m.history) := by
  have hrelease (client : Client) (r : Resource) : (m.applyRelease now client r).history =
      ((((T r).map fun l => l.releaseGrants client).getD []).map
          fun req => .granted req now).reverse ++
        ((if (T r).isSome then [.released client r] else []) ++ m.history) := by
    cases hT : T r with
    | none =>
      rw [h.release_free client hT]
      rfl
    | some k => exact (h.release now client hT).2.2
  cases cmd with
  | acquire req =>
    rw [LockManager.applyCommand, h.acquire_history now req, Table.grants, Table.records]
    split <;> rfl
  | release client r => exact hrelease client r
  | cancel q client r => simp [LockManager.applyCommand, LockManager.applyCancel, Table.grants,
      Table.records]
  | abort client r => exact hrelease client r

theorem Refines.clientLocks_release (hb : ∀ c r, r ∈ m.clientLocks c ↔ T.Holds c r)
    (now : Rat) (client : Client) (r : Resource) (c : Client) (r' : Resource) :
    r' ∈ (m.applyRelease now client r).clientLocks c ↔
      T.Holds c r' ∧ ¬ (client = c ∧ r = r') ∨
        ∃ w ∈ ((T r).map fun l => l.releaseGrants client).getD [],
          w.clientId = c ∧ w.resourceId = r' := by
  cases hT : T r with
  | none =>
    rw [h.release_free client hT, hb]
    simp only [Option.map_none, Option.getD_none, List.not_mem_nil, false_and, exists_false,
      or_false]
    refine (and_iff_left_of_imp fun hx he => ?_).symm
    obtain ⟨k, hk, -⟩ := hx
    obtain ⟨-, rfl⟩ := he
    cases hT.symm.trans hk
  | some k =>
    obtain ⟨l, hl, hs⟩ := h.held r k hT
    have hbooks : r' ∈ (m.drop client l r).clientLocks c ↔
        T.Holds c r' ∧ ¬ (client = c ∧ r = r') := by
      rw [← hb]
      by_cases hc : c = client
      · subst hc
        simp [LockManager.drop, eq_comm, and_comm]
      · simp [LockManager.drop, hc, Ne.symm hc]
    have hreleased := h.released now client hl
    generalize m.applyRelease now client r = m' at hreleased
    simp only [Option.map_some, Option.getD_some, ← hs.successors_eq, successors]
    cases hreleased with
    | handed hh hw hserves =>
      have hfiled (w : LockRequest Client Resource Request) (hw : w ∈ (front l.waiters).1) :
          w.resourceId = r :=
        h.filed hl w (front_append l.waiters ▸ List.mem_append_left _ hw)
      rw [if_pos hh, hserves.clientLocks, hbooks, mem_clients]
      refine or_congr_right ?_
      constructor
      · rintro ⟨rfl, w, hw, rfl⟩
        exact ⟨w, hw, rfl, hfiled w hw⟩
      · rintro ⟨w, hw, rfl, hr⟩
        exact ⟨hr.symm.trans (hfiled w hw), w, hw, rfl⟩
    | freed hh hw => simpa [hh, hw, front] using hbooks
    | kept hh => simpa [hh.ne_empty] using hbooks

theorem Refines.clientLocks_apply (hb : ∀ c r, r ∈ m.clientLocks c ↔ T.Holds c r) (now : Rat)
    (cmd : LockCommand Client Resource Request) (c : Client) (r : Resource) :
    r ∈ (m.applyCommand now cmd).clientLocks c ↔ (T.apply cmd).Holds c r := by
  rw [Table.holds_apply]
  cases cmd with
  | acquire req =>
    simp only [LockCommand.Frees, not_false_eq_true, and_true, ← hb, Table.grants]
    unfold LockManager.applyCommand LockManager.applyAcquire
    by_cases hc : Held.Admits (T req.resourceId) req.lockType
    · simp only [if_pos hc, (h.canAcquire now req).mpr hc, if_true, resolveFuture_clientLocks,
        List.mem_singleton, exists_eq_left]
      by_cases he : c = req.clientId
      · subst he
        simp [or_comm, eq_comm]
      · simp [he, Ne.symm he]
    · simp [if_neg hc, mt (h.canAcquire now req).mp hc]
  | release client r' => exact h.clientLocks_release hb now client r' c r
  | cancel q client r' =>
    simp [LockManager.applyCommand, LockManager.applyCancel, LockCommand.Frees, Table.grants, hb]
  | abort client r' => exact h.clientLocks_release hb now client r' c r

end Step

theorem books_reach {guard : LockManager Client Resource Request →
      Rat × LockCommand Client Resource Request → Prop}
    (h : (manager Client Resource Request).Reach guard m) :
    ∃ T, Refines m T ∧ ∀ c r, r ∈ m.clientLocks c ↔ T.Holds c r := by
  refine h.invariant
    (I := fun m => ∃ T, Refines m T ∧ ∀ c r, r ∈ m.clientLocks c ↔ T.Holds c r)
    ⟨Table.free, refines_init, fun c r => ?_⟩ fun s cmd t _ hT _ hs => ?_
  · simp [manager, Table.Holds, Table.free]
  · obtain ⟨T, href, hb⟩ := hT
    cases hs
    exact ⟨_, href.apply cmd.1 cmd.2, href.clientLocks_apply hb cmd.1 cmd.2⟩

/-- Every lock kept is held, and a client's books name the locks that name it as a holder. -/
theorem lockTable_represented (h : (manager Client Resource Request).Reachable m) :
    (∀ r l, m.locks.get? r = some l → l.holderIds.Nonempty) ∧
    ∀ c r, r ∈ m.clientLocks c ↔ ∃ l, m.locks.get? r = some l ∧ c ∈ l.holderIds := by
  obtain ⟨T, href, hbooks⟩ := books_reach h
  refine ⟨fun r l hl => ?_, fun c r => ?_⟩
  · obtain ⟨k, -, hs⟩ := href.lock hl
    rw [hs.holders]
    exact k.held
  · rw [hbooks, ← href.holds_iff]
    rfl

/-- A reader comes twice, somebody else releases, an unknown request is cancelled. -/
def stray : List (Rat × LockCommand Nat Nat Nat) :=
  [(0, .acquire { requestId := 0, clientId := 0, resourceId := 0, lockType := .shared }),
   (1, .acquire { requestId := 1, clientId := 0, resourceId := 0, lockType := .shared }),
   (2, .release 1 0),
   (3, .cancel 7 1 0)]

theorem lockTable_represented_stray : ∃ m, (manager Nat Nat Nat).run (manager Nat Nat Nat).init
    stray = some m ∧ m.clientLocks 0 = {0} ∧
    ∃ l, m.locks.get? 0 = some l ∧ 0 ∈ l.holderIds := by
  have hrun : ((manager Nat Nat Nat).run (manager Nat Nat Nat).init stray).any (fun m =>
      m.clientLocks 0 = {0}) = true := by
    decide +kernel
  obtain ⟨m, hm, hbooks⟩ := (Option.any_eq_true ..).mp hrun
  have hbooks : m.clientLocks 0 = {0} := of_decide_eq_true hbooks
  refine ⟨m, hm, hbooks, ?_⟩
  rw [← (lockTable_represented (System.reachable_run hm)).2, hbooks]
  exact Finset.mem_singleton_self 0

end DistSync.Locking
