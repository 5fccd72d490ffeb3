import DistSync.Locking.Refinement

/-! Mutual exclusion. The type of a lock is overwritten with every grant; it still is the
type of the last grant to each of its holders, and an exclusive lock has one holder. -/
namespace DistSync.Locking
variable {Client Resource Request : Type}
  [DecidableEq Client] [DecidableEq Resource]
variable {m : LockManager Client Resource Request} {T : Table Client Resource Request}
  {now : Rat} {r : Resource} {c : Client} {h : List (LockEvent Client Resource Request)}

def LockEvent.grantTo (client : Client) (resource : Resource) :
    LockEvent Client Resource Request → Option LockType
  | .granted req _ =>
    if req.clientId = client ∧ req.resourceId = resource then some req.lockType else none
  | .queued _ => none
  | .released _ _ => none
  | .cancelled _ _ => none

def lastGrant (h : List (LockEvent Client Resource Request)) (client : Client)
    (resource : Resource) : Option LockType :=
  h.findSome? (LockEvent.grantTo client resource)

/-- A client last granted exclusively holds alone, and several hold only what each was last
granted to share. -/
structure LockManager.MutualExclusion (m : LockManager Client Resource Request) : Prop where
  exclusive : ∀ r l, m.locks.get? r = some l → ∀ c ∈ l.holderIds,
    lastGrant m.history c r = some .exclusive → l.holderIds = {c} ∧ l.lockType = .exclusive
  shared : ∀ r l, m.locks.get? r = some l → 1 < l.holderIds.card →
    ∀ c ∈ l.holderIds, lastGrant m.history c r = some .shared

section Front
variable {ws : List (LockRequest Client Resource Request)}

omit [DecidableEq Client] [DecidableEq Resource] in
theorem lockType_of_mem_front {w : LockRequest Client Resource Request} (hw : w ∈ (front ws).1) :
    w.lockType = frontType ws := by
  cases ws with
  | nil => cases hw
  | cons v ws =>
    cases ht : v.lockType with
    | exclusive =>
      simp only [front, ht, List.mem_singleton] at hw
      rw [hw]
      simp [frontType]
    | shared =>
      simp only [front, ht, List.span_eq_takeWhile_dropWhile] at hw
      have hsh := List.mem_takeWhile_imp hw
      simpa [frontType, ht] using hsh

omit [DecidableEq Resource] in
theorem clients_front_exclusive (hw : ws ≠ []) (ht : frontType ws = .exclusive) :
    (clients (front ws).1).card = 1 := by
  cases ws with
  | nil => exact absurd rfl hw
  | cons v ws =>
    have hv : v.lockType = .exclusive := by simpa [frontType] using ht
    simp [front, hv, clients]

end Front

structure Table.Modes (T : Table Client Resource Request)
    (h : List (LockEvent Client Resource Request)) : Prop where
  last : ∀ r k, T r = some k → ∀ c ∈ k.holders, lastGrant h c r = some k.lockType
  alone : ∀ r k, T r = some k → k.lockType = .exclusive → k.holders.card = 1

theorem lastGrant_cons (e : LockEvent Client Resource Request) :
    lastGrant (e :: h) c r = ((e.grantTo c r).or (lastGrant h c r)) := by
  unfold lastGrant
  rw [List.findSome?_cons]
  cases e.grantTo c r <;> rfl

theorem lastGrant_granted_of_ne {req : LockRequest Client Resource Request}
    (hne : ¬ (req.clientId = c ∧ req.resourceId = r)) :
    lastGrant (.granted req now :: h) c r = lastGrant h c r := by
  rw [lastGrant_cons, LockEvent.grantTo, if_neg hne, Option.none_or]

theorem lastGrant_grants_of_ne {gs : List (LockRequest Client Resource Request)}
    (hne : ∀ w ∈ gs, w.resourceId ≠ r) :
    lastGrant ((gs.map fun req => .granted req now).reverse ++ h) c r = lastGrant h c r := by
  induction gs generalizing h with
  | nil => rfl
  | cons w gs ih =>
    rw [List.map_cons, List.reverse_cons, List.append_assoc,
      ih fun v hv => hne v (List.mem_cons_of_mem w hv)]
    exact lastGrant_granted_of_ne fun hw => hne w List.mem_cons_self hw.2

theorem lastGrant_grants {gs : List (LockRequest Client Resource Request)} {t : LockType}
    (hr : ∀ w ∈ gs, w.resourceId = r) (ht : ∀ w ∈ gs, w.lockType = t) (hc : c ∈ clients gs) :
    lastGrant ((gs.map fun req => .granted req now).reverse ++ h) c r = some t := by
  have hfound : (gs.map fun req => LockEvent.granted req now).reverse.findSome?
      (LockEvent.grantTo c r) = some t := by
    cases hf : (gs.map fun req => LockEvent.granted req now).reverse.findSome?
        (LockEvent.grantTo c r) with
    | none =>
      obtain ⟨w, hw, hwc⟩ := mem_clients.mp hc
      have hnone := List.findSome?_eq_none_iff.mp hf (.granted w now)
        (List.mem_reverse.mpr (List.mem_map_of_mem hw))
      rw [LockEvent.grantTo, if_pos ⟨hwc, hr w hw⟩] at hnone
      cases hnone
    | some t' =>
      obtain ⟨e, he, het⟩ := List.exists_of_findSome?_eq_some hf
      obtain ⟨w, hw, rfl⟩ := List.mem_map.mp (List.mem_reverse.mp he)
      have hw' : w.clientId = c ∧ w.resourceId = r := by
        by_contra hne
        rw [LockEvent.grantTo, if_neg hne] at het
        cases het
      rw [LockEvent.grantTo, if_pos hw'] at het
      rw [← het, ht w hw]
  rw [lastGrant, List.findSome?_append, hfound, Option.some_or]

namespace Table.Modes

theorem update {v : Option (Held Client Resource Request r)}
    {h' : List (LockEvent Client Resource Request)} (hm : T.Modes h)
    (hother : ∀ r', r' ≠ r → ∀ c, lastGrant h' c r' = lastGrant h c r')
    (hlast : ∀ k, v = some k → ∀ c ∈ k.holders, lastGrant h' c r = some k.lockType)
    (halone : ∀ k, v = some k → k.lockType = .exclusive → k.holders.card = 1) :
    Table.Modes (Function.update T r v) h' := by
  constructor
  case last =>
    intro r' k hk c hc
    by_cases he : r' = r
    · subst he
      rw [Function.update_self] at hk
      exact hlast k hk c hc
    · rw [Function.update_of_ne he] at hk
      rw [hother r' he c]
      exact hm.last r' k hk c hc
  case alone =>
    intro r' k hk
    by_cases he : r' = r
    · subst he
      rw [Function.update_self] at hk
      exact halone k hk
    · rw [Function.update_of_ne he] at hk
      exact hm.alone r' k hk

theorem grant (hm : T.Modes h) (req : LockRequest Client Resource Request)
    (hc : Held.Admits (T req.resourceId) req.lockType) :
    Table.Modes (Function.update T req.resourceId (some (Held.grant (T req.resourceId) req)))
      (.granted req now :: h) := by
  refine hm.update (fun r' hr c => lastGrant_granted_of_ne fun he => hr he.2.symm) ?_ ?_
  · intro k hk c hcm
    cases hk
    by_cases he : req.clientId = c
    · rw [lastGrant_cons, LockEvent.grantTo, if_pos ⟨he, rfl⟩]
      rfl
    · rw [lastGrant_granted_of_ne fun h => he h.1]
      cases hT : T req.resourceId with
      | none =>
        rw [hT] at hcm
        simp [Held.grant, Ne.symm he] at hcm
      | some k =>
        -- another holder: the lock is shared, and so is the request that it admits
        rw [hT] at hcm
        obtain ⟨hreq, hk⟩ := hc k hT
        have hold : c ∈ k.holders := (Finset.mem_insert.mp hcm).resolve_left (Ne.symm he)
        rw [hm.last _ k hT c hold, hk]
        exact congrArg some hreq.symm
  · intro k hk ht
    cases hk
    cases hT : T req.resourceId with
    | none => simp [Held.grant]
    | some k =>
      have hshared : req.lockType = .shared := (hc k hT).1
      rw [Held.grant, hshared] at ht
      cases ht

theorem queue (hm : T.Modes h) (req : LockRequest Client Resource Request)
    {k : Held Client Resource Request req.resourceId} (hk : T req.resourceId = some k) :
    Table.Modes (Function.update T req.resourceId (some (k.queue req rfl)))
      (.queued req :: h) := by
  refine hm.update (fun _ _ _ => rfl) ?_ ?_
  · intro k' hk' c hc
    cases hk'
    exact hm.last _ k hk c hc
  · intro k' hk'
    cases hk'
    exact hm.alone _ k hk

theorem acquire (hm : T.Modes h) (req : LockRequest Client Resource Request) :
    Table.Modes
      (Function.update T req.resourceId (some (Held.acquire (T req.resourceId) req rfl)))
      (if Held.Admits (T req.resourceId) req.lockType then .granted req now :: h
        else .queued req :: h) := by
  unfold Held.acquire
  by_cases hc : Held.Admits (T req.resourceId) req.lockType
  · rw [if_pos hc, if_pos hc]
    exact hm.grant req hc
  · rw [if_neg hc, if_neg hc]
    cases hT : T req.resourceId with
    | none => exact absurd (fun l hl => by rw [hT] at hl; cases hl) hc
    | some k => exact hm.queue req hT

theorem release (hm : T.Modes h) (client : Client) {k : Held Client Resource Request r}
    (hk : T r = some k) : Table.Modes (Function.update T r (k.release client))
      (((k.releaseGrants client).map fun req => .granted req now).reverse ++
        .released client r :: h) := by
  have hfiled : ∀ w ∈ k.releaseGrants client, w.resourceId = r := fun w hw =>
    k.resourceId_of_mem_grants hw
  refine hm.update (fun r' hr c => ?_) ?_ ?_
  · exact lastGrant_grants_of_ne fun w hw he => hr (he.symm.trans (hfiled w hw))
  · intro k' hk' c hc
    unfold Held.release at hk'
    unfold Held.releaseGrants
    split at hk'
    · rename_i hne
      cases hk'
      rw [if_pos hne]
      exact hm.last r k hk c (Finset.mem_of_mem_erase hc)
    · rename_i hne
      split at hk'
      · cases hk'
        rw [if_neg hne]
        unfold Held.releaseGrants at hfiled
        rw [if_neg hne] at hfiled
        exact lastGrant_grants hfiled (fun w hw => lockType_of_mem_front hw) hc
      · cases hk'
  · intro k' hk' ht
    unfold Held.release at hk'
    split at hk'
    · rename_i hne
      cases hk'
      have hone := hm.alone r k hk ht
      have hle := Finset.card_le_card (Finset.erase_subset client k.holders)
      exact le_antisymm (hone ▸ hle) hne.card_pos
    · split at hk'
      · rename_i hw
        cases hk'
        exact clients_front_exclusive hw ht
      · cases hk'

variable [DecidableEq Request]

theorem cancel (hm : T.Modes h) (q : Request) (r : Resource) :
    Table.Modes (Function.update T r ((T r).map fun l => l.cancel q)) (.cancelled q r :: h) := by
  refine hm.update (fun _ _ _ => rfl) ?_ ?_
  · intro k' hk' c hc
    obtain ⟨k, hk, rfl⟩ := Option.map_eq_some_iff.mp hk'
    exact hm.last r k hk c hc
  · intro k' hk'
    obtain ⟨k, hk, rfl⟩ := Option.map_eq_some_iff.mp hk'
    exact hm.alone r k hk

theorem apply (hm : T.Modes m.history) (h : Refines m T) (now : Rat)
    (c : LockCommand Client Resource Request) :
    (T.apply c).Modes (m.applyCommand now c).history := by
  have hrelease (client : Client) (r : Resource) :
      Table.Modes (Function.update T r ((T r).bind fun l => l.release client))
        (m.applyRelease now client r).history := by
    cases hT : T r with
    | none =>
      rw [h.release_free client hT]
      exact hm.update (fun _ _ _ => rfl) nofun nofun
    | some k =>
      rw [(h.release now client hT).2.2]
      exact hm.release client hT
  cases c with
  | acquire req =>
    rw [LockManager.applyCommand, h.acquire_history now req]
    exact hm.acquire req
  | release client r => exact hrelease client r
  | cancel q client r =>
    have hh : (m.applyCancel q r).history = .cancelled q r :: m.history := by
      simp [LockManager.applyCancel]
    rw [LockManager.applyCommand, hh]
    exact hm.cancel q r
  | abort client r => exact hrelease client r

omit [DecidableEq Request] in
theorem excludes (hm : T.Modes m.history) (h : Refines m T) : m.MutualExclusion := by
  constructor
  case exclusive =>
    intro r l hl c hc ht
    obtain ⟨k, hk, hs⟩ := h.lock hl
    rw [hs.holders] at hc ⊢
    have hlast := hm.last r k hk c hc
    rw [ht] at hlast
    have htype : k.lockType = .exclusive := (Option.some.inj hlast).symm
    obtain ⟨c', hc'⟩ := Finset.card_eq_one.mp (hm.alone r k hk htype)
    rw [hc', Finset.mem_singleton] at hc
    exact ⟨hc ▸ hc', hs.lockType.trans htype⟩
  case shared =>
    intro r l hl hcard c hc
    obtain ⟨k, hk, hs⟩ := h.lock hl
    rw [hs.holders] at hc hcard
    rw [hm.last r k hk c hc]
    cases ht : k.lockType with
    | shared => rfl
    | exclusive => exact absurd (hm.alone r k hk ht) hcard.ne'

end Table.Modes

variable [DecidableEq Request]

theorem exists_modes (h : (manager Client Resource Request).Reachable m) :
    ∃ T, Refines m T ∧ T.Modes m.history := by
  refine h.invariant (I := fun m => ∃ T, Refines m T ∧ T.Modes m.history)
    ⟨Table.free, refines_init, nofun, nofun⟩ fun s c t _ hT _ hs => ?_
  obtain ⟨T, href, hm⟩ := hT
  cases hs
  exact ⟨_, href.apply c.1 c.2, hm.apply href c.1 c.2⟩

/-- Mutual exclusion, whatever commands were applied and when. -/
theorem mutualExclusion (h : (manager Client Resource Request).Reachable m) :
    m.MutualExclusion := by
  obtain ⟨T, href, hm⟩ := exists_modes h
  exact hm.excludes href

/-- A shared lock with two holders, and an exclusive one handed over. -/
def handOvers : List (Rat × LockCommand Nat Nat Nat) :=
  [(0, .acquire { requestId := 0, clientId := 0, resourceId := 0, lockType := .shared }),
   (1, .acquire { requestId := 1, clientId := 1, resourceId := 0, lockType := .shared }),
   (2, .acquire { requestId := 2, clientId := 0, resourceId := 1, lockType := .exclusive }),
   (3, .acquire { requestId := 3, clientId := 1, resourceId := 1, lockType := .exclusive }),
   (4, .release 0 1)]

theorem mutualExclusion_handOvers : ∃ m, (manager Nat Nat Nat).run (manager Nat Nat Nat).init
    handOvers = some m ∧ (m.locks.get? 0).map Lock.holderIds = some {0, 1} ∧
    (m.locks.get? 1).map Lock.holderIds = some {1} ∧ m.MutualExclusion := by
  have hrun : ((manager Nat Nat Nat).run (manager Nat Nat Nat).init handOvers).any (fun m =>
      (m.locks.get? 0).map Lock.holderIds = some {0, 1} ∧
        (m.locks.get? 1).map Lock.holderIds = some {1}) = true := by
    decide +kernel
  obtain ⟨m, hm, hh⟩ := (Option.any_eq_true ..).mp hrun
  obtain ⟨h0, h1⟩ := of_decide_eq_true hh
  exact ⟨m, hm, h0, h1, mutualExclusion (System.reachable_run hm)⟩

end DistSync.Locking
