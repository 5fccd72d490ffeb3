import DistSync.Locking.Grants

/-! The manager refines the table: what it keeps for a resource is what the table
holds, a command moves both alike, and it grants exactly what the table grants. -/
namespace DistSync.Locking
variable {Client Resource Request : Type}
  [DecidableEq Client] [DecidableEq Resource]
variable {m m' : LockManager Client Resource Request} {T : Table Client Resource Request}
  {now : Rat} {r : Resource}

def LockManager.grantedRequests (m : LockManager Client Resource Request) :
    List (LockRequest Client Resource Request) :=
  m.history.filterMap fun
    | .granted req _ => some req
    | _ => none

/-- `m'` is `m` after the requests `granted` were taken from the front of `r`'s waiters
and granted in this order, which leaves `rest` waiting. -/
structure Served (m m' : LockManager Client Resource Request) (now : Rat) (r : Resource)
    (granted rest : List (LockRequest Client Resource Request)) : Prop where
  lock : ∀ l, m.locks.get? r = some l → ∃ l', m'.locks.get? r = some l' ∧ l'.waiters = rest ∧
    l'.holderIds = l.holderIds ∪ clients granted ∧
    l'.lockType = (granted.getLast?.map LockRequest.lockType).getD l.lockType
  other : ∀ r', r' ≠ r → m'.locks.get? r' = m.locks.get? r'
  edges : ∀ a b, b ∈ m'.wfg.edges a ↔ a ∉ clients granted ∧ b ∈ m.wfg.edges a
  history : m'.history = (granted.map fun req => .granted req now).reverse ++ m.history

theorem Served.refl {l : Lock Client Resource Request}
    {ws : List (LockRequest Client Resource Request)} (h : m.locks.get? r = some l)
    (hw : l.waiters = ws) : Served m m now r [] ws where
  lock l' hl := by
    rw [h] at hl
    cases hl
    exact ⟨l, h, hw, by simp [clients], rfl⟩
  other _ _ := rfl
  edges a b := by simp [clients]
  history := rfl

theorem Served.trans {m'' : LockManager Client Resource Request}
    {gs gs' ws ws' : List (LockRequest Client Resource Request)} (h : Served m m' now r gs ws)
    (h' : Served m' m'' now r gs' ws') : Served m m'' now r (gs ++ gs') ws' where
  lock l hl := by
    obtain ⟨l', hl', -, hh, ht⟩ := h.lock l hl
    obtain ⟨l'', hl'', hw, hh', ht'⟩ := h'.lock l' hl'
    refine ⟨l'', hl'', hw, ?_, ?_⟩
    · rw [hh', hh]
      ext c
      simp only [Finset.mem_union, mem_clients, List.mem_append]
      grind
    · rw [ht', ht, List.getLast?_append]
      cases gs'.getLast? <;> rfl
  other r' hr := (h'.other r' hr).trans (h.other r' hr)
  edges a b := by
    rw [h'.edges, h.edges]
    simp only [mem_clients, List.mem_append]
    grind
  history := by
    rw [h'.history, h.history]
    simp

variable [DecidableEq Request]

theorem served_head {l : Lock Client Resource Request}
    {w : LockRequest Client Resource Request} {ws : List (LockRequest Client Resource Request)}
    (hl : m.locks.get? r = some l) (hw : l.waiters = w :: ws) (hr : w.resourceId = r)
    (hc : l.canAcquire w.lockType) : Served m (m.serveHead now r w) now r [w] ws where
  lock l' hl' := by
    rw [hl] at hl'
    cases hl'
    refine ⟨_, serveHead_lock hl hw hr hc, rfl, ?_, rfl⟩
    ext c
    simp [or_comm, eq_comm]
  other r' hr' := by simp [serveHead_eq hl hw hr hc, Dict.get?_set, Ne.symm hr']
  edges a b := by
    rw [serveHead_eq hl hw hr hc, resolveFuture_wfg, WaitForGraph.mem_edges_removeWait]
    simp [eq_comm]
  history := by
    rw [serveHead_eq hl hw hr hc, resolveFuture_history]
    rfl

theorem Serves.served {l : Lock Client Resource Request}
    {gs ws : List (LockRequest Client Resource Request)} (h : Serves now r m gs m')
    (hl : m.locks.get? r = some l) (hw : l.waiters = gs ++ ws) : Served m m' now r gs ws := by
  induction h generalizing l with
  | nil => exact .refl hl hw
  | cons hk hv hr hc _ ih =>
    cases hk.symm.trans hl
    exact (served_head hl hw hr hc).trans (ih (serveHead_lock hl hw hr hc) rfl)

theorem served_next (now : Rat) {l : Lock Client Resource Request} (hl : m.locks.get? r = some l)
    (hh : l.holderIds = ∅) (hf : ∀ w ∈ l.waiters, w.resourceId = r) :
    Served m (m.grantNext now r) now r (front l.waiters).1 (front l.waiters).2 :=
  (serves_next now hl hh hf).served hl (front_append l.waiters).symm

structure Shows (l : Lock Client Resource Request) (h : Held Client Resource Request r) :
    Prop where
  lockType : l.lockType = h.lockType
  holders : l.holderIds = h.holders
  waiters : l.waiters = h.waiters

/-- The manager's locks are the table's. -/
structure Refines (m : LockManager Client Resource Request)
    (T : Table Client Resource Request) : Prop where
  free : ∀ r, T r = none → m.locks.get? r = none
  held : ∀ r h, T r = some h → ∃ l, m.locks.get? r = some l ∧ Shows l h

omit [DecidableEq Client] [DecidableEq Request] in
theorem Refines.lock (h : Refines m T) {l : Lock Client Resource Request}
    (hl : m.locks.get? r = some l) : ∃ k, T r = some k ∧ Shows l k := by
  cases hT : T r with
  | none =>
    rw [h.free r hT] at hl
    cases hl
  | some k =>
    obtain ⟨l', hl', hs⟩ := h.held r k hT
    rw [hl] at hl'
    cases hl'
    exact ⟨k, rfl, hs⟩

omit [DecidableEq Client] [DecidableEq Request] in
theorem Refines.update_some (h : Refines m T) {k : Held Client Resource Request r}
    {l : Lock Client Resource Request} (hl : m'.locks.get? r = some l) (hs : Shows l k)
    (ho : ∀ r', r' ≠ r → m'.locks.get? r' = m.locks.get? r') :
    Refines m' (Function.update T r (some k)) := by
  constructor
  case free =>
    intro r' hr'
    by_cases he : r' = r
    · subst he
      simp at hr'
    · rw [Function.update_of_ne he] at hr'
      rw [ho r' he]
      exact h.free r' hr'
  case held =>
    intro r' k' hr'
    by_cases he : r' = r
    · subst he
      rw [Function.update_self] at hr'
      cases hr'
      exact ⟨l, hl, hs⟩
    · rw [Function.update_of_ne he] at hr'
      rw [ho r' he]
      exact h.held r' k' hr'

omit [DecidableEq Client] [DecidableEq Request] in
theorem Refines.update_none (h : Refines m T) (hl : m'.locks.get? r = none)
    (ho : ∀ r', r' ≠ r → m'.locks.get? r' = m.locks.get? r') :
    Refines m' (Function.update T r none) := by
  constructor
  case free =>
    intro r' hr'
    by_cases he : r' = r
    · subst he
      exact hl
    · rw [Function.update_of_ne he] at hr'
      rw [ho r' he]
      exact h.free r' hr'
  case held =>
    intro r' k' hr'
    by_cases he : r' = r
    · subst he
      rw [Function.update_self] at hr'
      cases hr'
    · rw [Function.update_of_ne he] at hr'
      rw [ho r' he]
      exact h.held r' k' hr'

omit [DecidableEq Client] [DecidableEq Resource] [DecidableEq Request] in
theorem Shows.canAcquire {l : Lock Client Resource Request} {k : Held Client Resource Request r}
    (hs : Shows l k) (t : LockType) : l.canAcquire t ↔ Held.Admits (some k) t := by
  have hne : l.holderIds ≠ ∅ := hs.holders ▸ k.held.ne_empty
  cases t <;>
    simp [Lock.canAcquire, Lock.canAcquireShared, Lock.canAcquireExclusive, Held.Admits, hne,
      hs.lockType]

omit [DecidableEq Client] [DecidableEq Request] in
theorem Refines.canAcquire (h : Refines m T) (now : Rat)
    (req : LockRequest Client Resource Request) :
    (m.lockFor now req).canAcquire req.lockType ↔
      Held.Admits (T req.resourceId) req.lockType := by
  cases hT : T req.resourceId with
  | none =>
    have hnew : (m.lockFor now req).holderIds = ∅ := by
      simp [LockManager.lockFor, h.free _ hT]
    cases ht : req.lockType <;>
      simp [Lock.canAcquire, Lock.canAcquireShared, Lock.canAcquireExclusive, Held.Admits, hnew]
  | some k =>
    obtain ⟨l, hl, hs⟩ := h.held _ k hT
    rw [lockFor_eq hl]
    exact hs.canAcquire _

section Acquire
variable (h : Refines m T) (now : Rat) (req : LockRequest Client Resource Request)
include h

theorem Refines.grant (hc : Held.Admits (T req.resourceId) req.lockType) :
    Refines (m.applyAcquire now req)
      (Function.update T req.resourceId (some (Held.grant (T req.resourceId) req))) := by
  have hcan := (h.canAcquire now req).mpr hc
  unfold LockManager.applyAcquire
  simp only [if_pos hcan]
  refine h.update_some (by rw [resolveFuture_locks, Dict.get?_set_self]) ?_ fun r' hr' => by
    rw [resolveFuture_locks, Dict.get?_set, if_neg (Ne.symm hr')]
  cases hT : T req.resourceId with
  | none => constructor <;> simp [LockManager.lockFor, h.free _ hT, Held.grant]
  | some k =>
    obtain ⟨l, hl, hs⟩ := h.held _ k hT
    constructor <;> simp [LockManager.lockFor, hl, Held.grant, hs.holders, hs.waiters]

theorem Refines.queue {k : Held Client Resource Request req.resourceId}
    (hk : T req.resourceId = some k) (hc : ¬ Held.Admits (T req.resourceId) req.lockType) :
    Refines (m.applyAcquire now req)
      (Function.update T req.resourceId (some (k.queue req rfl))) := by
  have hcan := mt (h.canAcquire now req).mp hc
  unfold LockManager.applyAcquire
  simp only [if_neg hcan]
  refine h.update_some (Dict.get?_set_self _ _ _) ?_ fun r' hr' => by
    rw [Dict.get?_set, if_neg (Ne.symm hr')]
  obtain ⟨l, hl, hs⟩ := h.held _ k hk
  constructor <;>
    simp [LockManager.lockFor, hl, Held.queue, hs.holders, hs.waiters, hs.lockType]

theorem Refines.acquire : Refines (m.applyAcquire now req)
    (Function.update T req.resourceId (some (Held.acquire (T req.resourceId) req rfl))) := by
  unfold Held.acquire
  by_cases hc : Held.Admits (T req.resourceId) req.lockType
  · rw [if_pos hc]
    exact h.grant now req hc
  · rw [if_neg hc]
    cases hT : T req.resourceId with
    | none => exact absurd (fun l hl => by rw [hT] at hl; cases hl) hc
    | some k => exact h.queue now req hT hc

theorem Refines.acquire_history : (m.applyAcquire now req).history =
    if Held.Admits (T req.resourceId) req.lockType then .granted req now :: m.history
    else .queued req :: m.history := by
  unfold LockManager.applyAcquire
  by_cases hc : Held.Admits (T req.resourceId) req.lockType
  · simp [hc, (h.canAcquire now req).mpr hc]
  · simp [hc, mt (h.canAcquire now req).mp hc]

theorem Refines.acquire_edges (a b : Client) : b ∈ (m.applyAcquire now req).wfg.edges a ↔
    if Held.Admits (T req.resourceId) req.lockType then a ≠ req.clientId ∧ b ∈ m.wfg.edges a
    else (req.clientId = a ∧ ∃ k, T req.resourceId = some k ∧ b ∈ k.holders) ∨
      b ∈ m.wfg.edges a := by
  unfold LockManager.applyAcquire
  by_cases hc : Held.Admits (T req.resourceId) req.lockType
  · simp [hc, (h.canAcquire now req).mpr hc, WaitForGraph.mem_edges_removeWait]
  · have hcan := mt (h.canAcquire now req).mp hc
    simp only [if_neg hc, if_neg hcan, WaitForGraph.mem_edges_addWaits]
    cases hT : T req.resourceId with
    | none => exact absurd (fun l hl => by rw [hT] at hl; cases hl) hc
    | some k =>
      obtain ⟨l, hl, hs⟩ := h.held _ k hT
      simp [LockManager.lockFor, hl, hs.holders]

end Acquire

/-- What `_apply_release` does before it looks for waiters. -/
def LockManager.drop (m : LockManager Client Resource Request) (client : Client)
    (lock : Lock Client Resource Request) (r : Resource) : LockManager Client Resource Request :=
  { m with
    locks := m.locks.set r { lock with holderIds := lock.holderIds.erase client }
    clientLocks := Function.update m.clientLocks client ((m.clientLocks client).erase r)
    wfg := m.wfg.removeNode client
    history := .released client r :: m.history }

def stillWaiting (l : Lock Client Resource Request) (client : Client) :
    List (LockRequest Client Resource Request) :=
  if l.holderIds.erase client = ∅ then (front l.waiters).2 else l.waiters

def successors (l : Lock Client Resource Request) (client : Client) :
    List (LockRequest Client Resource Request) :=
  if l.holderIds.erase client = ∅ then (front l.waiters).1 else []

omit [DecidableEq Resource] [DecidableEq Request] in
theorem Shows.stillWaiting_eq {l : Lock Client Resource Request}
    {k : Held Client Resource Request r} (hs : Shows l k) (client : Client) :
    stillWaiting l client = k.releaseRest client := by
  unfold stillWaiting Held.releaseRest
  rw [hs.holders, hs.waiters]
  by_cases hne : (k.holders.erase client).Nonempty
  · rw [if_pos hne, if_neg hne.ne_empty]
  · rw [if_neg hne, if_pos (Finset.not_nonempty_iff_eq_empty.mp hne)]

omit [DecidableEq Resource] [DecidableEq Request] in
theorem Shows.successors_eq {l : Lock Client Resource Request}
    {k : Held Client Resource Request r} (hs : Shows l k) (client : Client) :
    successors l client = k.releaseGrants client := by
  unfold successors Held.releaseGrants
  rw [hs.holders, hs.waiters]
  by_cases hne : (k.holders.erase client).Nonempty
  · rw [if_pos hne, if_neg hne.ne_empty]
  · rw [if_neg hne, if_pos (Finset.not_nonempty_iff_eq_empty.mp hne)]

omit [DecidableEq Request] in
@[simp] theorem drop_lock (client : Client) (l : Lock Client Resource Request) :
    (m.drop client l r).locks.get? r =
      some { l with holderIds := l.holderIds.erase client } := Dict.get?_set_self _ _ _

omit [DecidableEq Request] in
theorem drop_other (client : Client) (l : Lock Client Resource Request) {r' : Resource}
    (hr : r' ≠ r) : (m.drop client l r).locks.get? r' = m.locks.get? r' := by
  rw [LockManager.drop, Dict.get?_set, if_neg (Ne.symm hr)]

theorem applyRelease_of_held {client : Client} {l : Lock Client Resource Request}
    (hl : m.locks.get? r = some l) : m.applyRelease now client r =
      if l.holderIds.erase client = ∅ ∧ l.waiters ≠ [] then (m.drop client l r).grantNext now r
      else if l.holderIds.erase client = ∅ then
        { m.drop client l r with locks := (m.drop client l r).locks.erase r }
      else m.drop client l r := by
  simp only [LockManager.applyRelease, hl]
  rfl

/-- What a release can make of the lock `l`: it goes on to the first who wait, nobody is left to
take it, or others still hold it. -/
inductive Released (m : LockManager Client Resource Request) (now : Rat) (client : Client)
    (r : Resource) (l : Lock Client Resource Request) : LockManager Client Resource Request → Prop
  | handed {m' : LockManager Client Resource Request} (hh : l.holderIds.erase client = ∅)
      (hw : l.waiters ≠ []) (hs : Serves now r (m.drop client l r) (front l.waiters).1 m') :
    Released m now client r l m'
  | freed (hh : l.holderIds.erase client = ∅) (hw : l.waiters = []) :
    Released m now client r l
      { m.drop client l r with locks := (m.drop client l r).locks.erase r }
  | kept (hh : (l.holderIds.erase client).Nonempty) : Released m now client r l (m.drop client l r)

omit [DecidableEq Client] [DecidableEq Request] in
theorem Refines.filed (h : Refines m T) {l : Lock Client Resource Request}
    (hl : m.locks.get? r = some l) : ∀ w ∈ l.waiters, w.resourceId = r := by
  obtain ⟨k, -, hs⟩ := h.lock hl
  exact hs.waiters ▸ k.filed

theorem Refines.released (h : Refines m T) (now : Rat) (client : Client)
    {l : Lock Client Resource Request} (hl : m.locks.get? r = some l) :
    Released m now client r l (m.applyRelease now client r) := by
  rw [applyRelease_of_held hl]
  by_cases hh : l.holderIds.erase client = ∅
  · by_cases hw : l.waiters = []
    · rw [if_neg fun hx => hx.2 hw, if_pos hh]
      exact .freed hh hw
    · rw [if_pos ⟨hh, hw⟩]
      have hfiled := h.filed hl
      have hserves := serves_next now (drop_lock (m := m) client l) hh hfiled
      exact .handed hh hw hserves
  · rw [if_neg fun hx => hh hx.1, if_neg hh]
    exact .kept (Finset.nonempty_iff_ne_empty.mpr hh)

theorem Refines.release (h : Refines m T) (now : Rat) (client : Client)
    {k : Held Client Resource Request r} (hk : T r = some k) :
    Refines (m.applyRelease now client r) (Function.update T r (k.release client)) ∧
      (∀ a b, b ∈ (m.applyRelease now client r).wfg.edges a ↔
        a ∉ clients (k.releaseGrants client) ∧ a ≠ client ∧ b ≠ client ∧ b ∈ m.wfg.edges a) ∧
      (m.applyRelease now client r).history =
        ((k.releaseGrants client).map fun req => .granted req now).reverse ++
          .released client r :: m.history := by
  obtain ⟨l, hl, hs⟩ := h.held r k hk
  have hedges (a b : Client) : b ∈ (m.drop client l r).wfg.edges a ↔
      a ≠ client ∧ b ≠ client ∧ b ∈ m.wfg.edges a := WaitForGraph.mem_edges_removeNode _ _ _ _
  have hreleased := h.released now client hl
  generalize m.applyRelease now client r = m' at hreleased
  unfold Held.release Held.releaseGrants
  cases hreleased with
  | handed hh hw hserves =>
    have hserved := hserves.served (drop_lock client l) (front_append l.waiters).symm
    rw [hs.holders] at hh
    rw [hs.waiters] at hw hserved
    simp only [hh, hw, ne_eq, not_false_iff, Finset.not_nonempty_empty, dif_neg, if_false, dif_pos]
    refine ⟨?_, fun a b => ?_, hserved.history⟩
    · obtain ⟨l', hl', hws, hholders, ht⟩ := hserved.lock _ (drop_lock client l)
      refine h.update_some hl' ⟨?_, ?_, hws⟩ fun r' hr' =>
        (hserved.other r' hr').trans (drop_other client l hr')
      · rw [ht, front_getLast hw]
        rfl
      · rw [hholders, hs.holders, hh, Finset.empty_union]
        rfl
    · rw [hserved.edges, hedges]
  | freed hh hw =>
    rw [hs.holders] at hh
    rw [hs.waiters] at hw
    simp only [hh, hw, ne_eq, not_true, if_false, Finset.not_nonempty_empty, dif_neg,
      not_false_iff]
    refine ⟨h.update_none ?_ fun r' hr' => ?_, fun a b => ?_, ?_⟩
    · simp [Dict.get?_erase]
    · rw [Dict.get?_erase, if_neg hr', drop_other client l hr']
    · simp [clients, hedges, front]
    · simp [front, LockManager.drop]
  | kept hh =>
    rw [hs.holders] at hh
    simp only [hh, dif_pos, if_pos]
    refine ⟨h.update_some (drop_lock client l) ⟨hs.lockType, ?_, hs.waiters⟩ fun r' hr' =>
      drop_other client l hr', fun a b => ?_, rfl⟩
    · exact congrArg (Finset.erase · client) hs.holders
    · simp [clients, hedges]

theorem applyRelease_of_free {client : Client} (hl : m.locks.get? r = none) :
    m.applyRelease now client r = m := by
  simp only [LockManager.applyRelease, hl]

theorem Refines.release_free (h : Refines m T) (client : Client) (hT : T r = none) :
    m.applyRelease now client r = m := applyRelease_of_free (h.free r hT)

omit [DecidableEq Client] in
theorem Refines.cancel (h : Refines m T) (q : Request) : Refines (m.applyCancel q r)
    (Function.update T r ((T r).map fun l => l.cancel q)) := by
  unfold LockManager.applyCancel
  cases hT : T r with
  | none =>
    refine h.update_none ?_ fun r' _ => ?_
    · simp [h.free r hT]
    · simp [h.free r hT]
  | some k =>
    obtain ⟨l, hl, hs⟩ := h.held r k hT
    refine h.update_some (l := { l with waiters := l.waiters.filter fun w => w.requestId ≠ q })
      ?_ ⟨hs.lockType, hs.holders, ?_⟩ fun r' hr' => ?_
    · simp [hl]
    · exact congrArg (List.filter fun w => w.requestId ≠ q) hs.waiters
    · simp [hl, Dict.get?_set, Ne.symm hr']

/-- Every command moves the manager's locks as it moves the table. -/
theorem Refines.apply (h : Refines m T) (now : Rat) (c : LockCommand Client Resource Request) :
    Refines (m.applyCommand now c) (T.apply c) := by
  have hrelease (client : Client) (r : Resource) : Refines (m.applyRelease now client r)
      (Function.update T r ((T r).bind fun l => l.release client)) := by
    cases hT : T r with
    | none =>
      rw [h.release_free client hT]
      exact h.update_none (h.free r hT) fun _ _ => rfl
    | some k => exact (h.release now client hT).1
  cases c with
  | acquire req => exact h.acquire now req
  | release client r => exact hrelease client r
  | cancel q client r => exact h.cancel q
  | abort client r => exact hrelease client r

omit [DecidableEq Client] [DecidableEq Resource] [DecidableEq Request] in
theorem grantedRequests_append (m : LockManager Client Resource Request)
    {gs : List (LockRequest Client Resource Request)}
    {es : List (LockEvent Client Resource Request)}
    (hm : m.history = (gs.map fun req => .granted req now).reverse ++ es) :
    m.grantedRequests = gs.reverse ++ es.filterMap fun
      | .granted req _ => some req
      | _ => none := by
  unfold LockManager.grantedRequests
  rw [hm, List.filterMap_append, ← List.map_reverse, List.filterMap_map]
  congr 1
  exact List.filterMap_some

theorem Refines.grants (h : Refines m T) (now : Rat) (c : LockCommand Client Resource Request) :
    (m.applyCommand now c).grantedRequests = (T.grants c).reverse ++ m.grantedRequests := by
  have hrelease (client : Client) (r : Resource) : (m.applyRelease now client r).grantedRequests =
      (((T r).map fun l => l.releaseGrants client).getD []).reverse ++ m.grantedRequests := by
    cases hT : T r with
    | none =>
      rw [h.release_free client hT]
      rfl
    | some k => exact (grantedRequests_append _ (h.release now client hT).2.2).trans rfl
  cases c with
  | acquire req =>
    simp only [LockManager.applyCommand, LockManager.grantedRequests, h.acquire_history now,
      Table.grants]
    split <;> rfl
  | release client r => exact hrelease client r
  | cancel q client r => simp [LockManager.applyCommand, LockManager.applyCancel, Table.grants,
      LockManager.grantedRequests]
  | abort client r => exact hrelease client r

omit [DecidableEq Client] [DecidableEq Request] in
theorem refines_init : Refines ({} : LockManager Client Resource Request) Table.free where
  free _ _ := rfl
  held _ _ h := by cases h

theorem exists_refines {guard : LockManager Client Resource Request →
      Rat × LockCommand Client Resource Request → Prop}
    (h : (manager Client Resource Request).Reach guard m) : ∃ T, Refines m T := by
  refine h.invariant (I := fun m => ∃ T, Refines m T) ⟨_, refines_init⟩ fun s c t _ hT _ hs => ?_
  obtain ⟨T, hT⟩ := hT
  cases hs
  exact ⟨_, hT.apply c.1 c.2⟩

end DistSync.Locking
