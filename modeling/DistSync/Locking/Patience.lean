import Mathlib.Data.List.Basic
import DistSync.Progress
import DistSync.Locking.Queueing

/-! How long a request waits. A shared request that comes later may be granted first, as long as
the lock is shared; where nobody overtakes so, each release by a holder brings a waiting request
closer, and it is granted after at most as many releases as there are holders and requests
ahead of it. -/
namespace DistSync.Locking
variable {Client Resource Request : Type}
  [DecidableEq Client] [DecidableEq Resource] [DecidableEq Request]

namespace LockManager
variable (m : LockManager Client Resource Request)

def holdersOf (r : Resource) : Finset Client := ((m.locks.get? r).map Lock.holderIds).getD ∅

/-- How many holders have to go, and how many requests are served before. -/
def ahead (req : LockRequest Client Resource Request) : Nat :=
  (m.holdersOf req.resourceId).card + (m.waitersOf req.resourceId).idxOf req

def HandsBack (r : Resource) : Rat × LockCommand Client Resource Request → Prop
  | (_, .release client r') | (_, .abort client r') => r' = r ∧ m.Holds client r
  | _ => False

instance (r : Resource) (c : Rat × LockCommand Client Resource Request) :
    Decidable (m.HandsBack r c) :=
  match c with
  | (_, .release _ _) | (_, .abort _ _) => inferInstanceAs (Decidable (_ ∧ _))
  | (_, .acquire _) | (_, .cancel _ _ _) => .isFalse id

/-- Nobody overtakes the request, and it is not given up. -/
def Patient (req : LockRequest Client Resource Request) :
    Rat × LockCommand Client Resource Request → Prop
  | (now, .acquire q) =>
    q.resourceId = req.resourceId → ¬ (m.lockFor now q).canAcquire q.lockType
  | (_, .cancel q _ _) => q ≠ req.requestId
  | _ => True

instance (req : LockRequest Client Resource Request)
    (c : Rat × LockCommand Client Resource Request) : Decidable (m.Patient req c) :=
  match c with
  | (_, .acquire _) => inferInstanceAs (Decidable (_ → _))
  | (_, .cancel _ _ _) => inferInstanceAs (Decidable (_ ≠ _))
  | (_, .release _ _) | (_, .abort _ _) => .isTrue trivial

end LockManager

section Front
variable {ws : List (LockRequest Client Resource Request)}
  {req : LockRequest Client Resource Request}

omit [DecidableEq Resource] [DecidableEq Request] in
theorem card_clients_le (ws : List (LockRequest Client Resource Request)) :
    (clients ws).card ≤ ws.length :=
  (List.toFinset_card_le _).trans_eq (List.length_map ..)

theorem idxOf_front (h : req ∈ ws) : req ∈ (front ws).1 ∨
    req ∈ (front ws).2 ∧ (clients (front ws).1).card + (front ws).2.idxOf req ≤ ws.idxOf req := by
  have hws := front_append ws
  by_cases hg : req ∈ (front ws).1
  · exact .inl hg
  · have hrest : req ∈ (front ws).2 := by
      rw [← hws] at h
      exact (List.mem_append.mp h).resolve_left hg
    have hidx : ws.idxOf req = (front ws).1.length + (front ws).2.idxOf req := by
      rw [← List.idxOf_append_of_notMem hg, hws]
    have hcard := card_clients_le (front ws).1
    exact .inr ⟨hrest, by omega⟩

theorem idxOf_filter_le (p : LockRequest Client Resource Request → Bool) (hp : p req = true) :
    (ws.filter p).idxOf req ≤ ws.idxOf req := by
  induction ws with
  | nil => exact Nat.le_refl _
  | cons w ws ih =>
    by_cases hw : w = req
    · subst hw
      rw [List.filter_cons_of_pos hp, List.idxOf_cons_self]
      exact Nat.zero_le _
    · rw [List.idxOf_cons_ne _ hw]
      cases hpw : p w with
      | true =>
        rw [List.filter_cons_of_pos hpw, List.idxOf_cons_ne _ hw]
        exact Nat.succ_le_succ ih
      | false =>
        rw [List.filter_cons_of_neg (by simp [hpw])]
        exact ih.trans (Nat.le_succ _)

end Front

section Table
variable {T : Table Client Resource Request} {m : LockManager Client Resource Request}
  {req : LockRequest Client Resource Request} {r : Resource}

def Held.ahead (k : Held Client Resource Request r) (req : LockRequest Client Resource Request) :
    Nat :=
  k.holders.card + k.waiters.idxOf req

theorem Held.ahead_pos (k : Held Client Resource Request r) : 0 < k.ahead req :=
  Nat.add_pos_left (Finset.card_pos.mpr k.held) _

theorem Held.ahead_release {k : Held Client Resource Request r} {client : Client}
    (hc : client ∈ k.holders) (hw : req ∈ k.waiters) : req ∈ k.releaseGrants client ∨
      ∃ k', k.release client = some k' ∧ req ∈ k'.waiters ∧ k'.ahead req + 1 ≤ k.ahead req := by
  have hcard := Finset.card_erase_add_one hc
  unfold releaseGrants release Held.ahead
  by_cases hne : (k.holders.erase client).Nonempty
  · rw [dif_pos hne]
    exact .inr ⟨_, rfl, hw, by dsimp only; omega⟩
  · rw [if_neg hne, dif_neg hne, dif_pos (List.ne_nil_of_mem hw)]
    refine (idxOf_front hw).imp_right fun h => ⟨_, rfl, h.1, ?_⟩
    dsimp only [handOver]
    omega

omit [DecidableEq Resource] [DecidableEq Request] in
theorem Held.release_stranger {k : Held Client Resource Request r} {client : Client}
    (hc : client ∉ k.holders) : k.release client = some k := by
  have he := Finset.erase_eq_of_notMem hc
  have hne : (k.holders.erase client).Nonempty := he.symm ▸ k.held
  unfold release
  rw [dif_pos hne]
  cases k
  simp only [he]

theorem Refines.ahead (h : Refines m T) {k : Held Client Resource Request req.resourceId}
    (hk : T req.resourceId = some k) : m.ahead req = k.ahead req := by
  obtain ⟨l, hl, hs⟩ := h.held _ k hk
  rw [LockManager.ahead, LockManager.holdersOf, waitersOf_eq hl, hl, Option.map_some,
    Option.getD_some, hs.holders, hs.waiters, Held.ahead]

def LockManager.Awaits (m : LockManager Client Resource Request)
    (req : LockRequest Client Resource Request) : Prop :=
  ∃ T, Refines m T ∧ ∃ k, T req.resourceId = some k ∧ req ∈ k.waiters

variable {k : Held Client Resource Request req.resourceId} (h : Refines m T)
  (hk : T req.resourceId = some k) (hw : req ∈ k.waiters)
include h hk hw

theorem Refines.closer_release (client : Client) (r : Resource) :
    req ∈ ((T r).map fun l => l.releaseGrants client).getD [] ∨
      ∃ k', Function.update T r ((T r).bind fun l => l.release client) req.resourceId = some k' ∧
        req ∈ k'.waiters ∧
        k'.ahead req + (if r = req.resourceId ∧ m.Holds client req.resourceId then 1 else 0) ≤
          k.ahead req := by
  by_cases hr : r = req.resourceId
  · subst hr
    simp only [hk, Option.map_some, Option.getD_some, Option.bind_some, Function.update_self,
      true_and, h.holds_iff, Table.Holds, Option.some.injEq, exists_eq_left']
    by_cases hc : client ∈ k.holders
    · simpa only [if_pos hc] using Held.ahead_release hc hw
    · simp only [if_neg hc, Held.release_stranger hc]
      exact .inr ⟨k, rfl, hw, Nat.le_refl _⟩
  · rw [Function.update_of_ne (Ne.symm hr), hk]
    refine .inr ⟨k, rfl, hw, ?_⟩
    simp [hr]

/-- One command: the request is granted, or it waits on and is not set back. -/
theorem Refines.closer {c : Rat × LockCommand Client Resource Request} (hp : m.Patient req c) :
    req ∈ T.grants c.2 ∨ ∃ k', T.apply c.2 req.resourceId = some k' ∧ req ∈ k'.waiters ∧
      k'.ahead req + (if m.HandsBack req.resourceId c then 1 else 0) ≤ k.ahead req := by
  obtain ⟨now, cmd⟩ := c
  cases cmd with
  | release client r => exact h.closer_release hk hw client r
  | abort client r => exact h.closer_release hk hw client r
  | cancel q client r =>
    right
    rw [Table.apply]
    by_cases hr : req.resourceId = r
    · subst hr
      rw [Function.update_self, hk]
      have hkeep : decide (req.requestId ≠ q) = true := decide_eq_true (Ne.symm hp)
      exact ⟨_, rfl, List.mem_filter.mpr ⟨hw, hkeep⟩,
        Nat.add_le_add_left (idxOf_filter_le _ hkeep) _⟩
    · rw [Function.update_of_ne hr]
      exact ⟨k, hk, hw, Nat.le_refl _⟩
  | acquire q =>
    right
    rw [Table.apply]
    by_cases hr : req.resourceId = q.resourceId
    · have hno : ¬ Held.Admits (T q.resourceId) q.lockType :=
        fun ha => hp hr.symm ((h.canAcquire now q).mpr ha)
      obtain ⟨_, _, r, _, _⟩ := q
      subst hr
      dsimp only at hno ⊢
      rw [hk] at hno ⊢
      rw [Function.update_self, Held.acquire.eq_def, if_neg hno]
      refine ⟨_, rfl, List.mem_append_left _ hw, ?_⟩
      exact Nat.add_le_add_left (List.idxOf_append_of_mem hw).le _
    · rw [Function.update_of_ne hr]
      exact ⟨k, hk, hw, Nat.le_refl _⟩

end Table

variable {m : LockManager Client Resource Request} {req : LockRequest Client Resource Request}

omit [DecidableEq Client] [DecidableEq Request] in
theorem Refines.awaits {T : Table Client Resource Request} (h : Refines m T)
    (hw : req ∈ m.waitersOf req.resourceId) : m.Awaits req := by
  rw [h.waitersOf, Table.waiters] at hw
  refine ⟨T, h, ?_⟩
  cases hk : T req.resourceId with
  | none =>
    rw [hk] at hw
    cases hw
  | some k =>
    rw [hk] at hw
    exact ⟨k, rfl, hw⟩

/-- Bounded waiting. While a request waits, somebody holds its resource; and where nobody overtakes
it, it is granted once the resource has been handed back as often as there are holders now and
requests before it. -/
theorem bounded_waiting (h : (manager Client Resource Request).Reachable m)
    (hw : req ∈ m.waitersOf req.resourceId) :
    (∃ client, m.Holds client req.resourceId) ∧ ∀ cs m',
      (manager Client Resource Request).Along (fun m c _ => m.Patient req c) m cs →
      (manager Client Resource Request).run m cs = some m' →
      m.ahead req ≤ (manager Client Resource Request).turns
        (fun m c => m.HandsBack req.resourceId c) m cs →
      m.grantedRequests.count req < m'.grantedRequests.count req := by
  obtain ⟨T, hT⟩ := exists_refines h
  have hawaits := hT.awaits hw
  constructor
  · obtain ⟨T, hT, k, hk, -⟩ := hawaits
    obtain ⟨client, hc⟩ := k.held
    exact ⟨client, hT.holds_iff.mpr ⟨k, hk, hc⟩⟩
  · intro cs m' hp hr hn
    refine (System.goal_of_turns (M := manager Client Resource Request)
      (I := fun x => x.Awaits req ∧ m.grantedRequests.count req ≤ x.grantedRequests.count req)
      (P := fun x => (∃ T, Refines x T) ∧
        m.grantedRequests.count req < x.grantedRequests.count req)
      (fun x => x.ahead req) ?_ ?_ ?_ ⟨hawaits, le_refl _⟩ hp hr hn).2
    · intro x hx
      obtain ⟨⟨T, hT, k, hk, -⟩, -⟩ := hx
      exact hT.ahead hk ▸ k.ahead_pos
    · intro x c y hx hs
      obtain ⟨⟨T, hT⟩, hlt⟩ := hx
      cases hs
      refine ⟨⟨_, hT.apply c.1 c.2⟩, ?_⟩
      rw [hT.grants, List.count_append]
      omega
    · intro x c y hx hc hs
      obtain ⟨⟨T, hT, k, hk, hwait⟩, hle⟩ := hx
      cases hs
      have hT' := hT.apply c.1 c.2
      rw [hT.grants, List.count_append, List.count_reverse]
      cases hT.closer hk hwait hc with
      | inl hgrant =>
        have hpos := List.count_pos_iff.mpr hgrant
        exact .inl ⟨⟨_, hT'⟩, by omega⟩
      | inr hcloser =>
        obtain ⟨k', hk', hwait', hle'⟩ := hcloser
        rw [hT'.ahead hk', hT.ahead hk]
        exact .inr ⟨⟨⟨_, hT', k', hk', hwait'⟩, by omega⟩, hle'⟩

/-- Client 0 holds the resource, clients 1 and 2 wait for it. -/
def inLine : List (Rat × LockCommand Nat Nat Nat) :=
  [(0, .acquire ⟨0, 0, 0, .exclusive, 30⟩), (1, .acquire ⟨1, 1, 0, .exclusive, 30⟩),
   (2, .acquire ⟨2, 2, 0, .shared, 30⟩)]

/-- Both who are before client 2 go, and another comes. -/
def moveUp : List (Rat × LockCommand Nat Nat Nat) :=
  [(3, .release 0 0), (4, .acquire ⟨3, 3, 0, .shared, 30⟩), (5, .abort 1 0)]

theorem bounded_waiting_inLine : ∃ m m',
    (manager Nat Nat Nat).run (manager Nat Nat Nat).init inLine = some m ∧
      (manager Nat Nat Nat).run m moveUp = some m' ∧
      m.grantedRequests.count ⟨2, 2, 0, .shared, 30⟩ <
        m'.grantedRequests.count ⟨2, 2, 0, .shared, 30⟩ := by
  have hm : (manager Nat Nat Nat).run (manager Nat Nat Nat).init inLine = some _ := rfl
  have hwait := bounded_waiting (System.reachable_run hm)
    (by decide : (⟨2, 2, 0, .shared, 30⟩ : LockRequest Nat Nat Nat) ∈ LockManager.waitersOf _ 0)
  exact ⟨_, _, hm, rfl, hwait.2 moveUp _ (by decide) rfl (by decide)⟩

end DistSync.Locking
