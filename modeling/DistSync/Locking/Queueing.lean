import DistSync.Waitlist
import DistSync.Locking.Holdings

/-! The queues of the locks as waiting lists: what the history says of a resource are the visits
to its queue. `_grant_next` serves those who come first, and where every request has its own id
nobody is lost, served twice or overtaken. -/
namespace DistSync.Locking
variable {Client Resource Request : Type}
  [DecidableEq Client] [DecidableEq Resource] [DecidableEq Request]
variable {m m' : LockManager Client Resource Request} {T : Table Client Resource Request}
  {now : Rat} {r : Resource} {q : Request} {l : Lock Client Resource Request}
  {w : LockRequest Client Resource Request}
  {gs issued : List (LockRequest Client Resource Request)}
  {h : List (LockEvent Client Resource Request)}

/-- The `while` loop of `_grant_next` ends in the last state after it popped these requests. -/
inductive LoopReturns (now : Rat) (r : Resource) : LockManager Client Resource Request →
    List (LockRequest Client Resource Request) → LockManager Client Resource Request → Prop
  | stop {m : LockManager Client Resource Request}
      (hw : ∀ w ∈ (m.waitersOf r).head?, w.lockType ≠ .shared) : LoopReturns now r m [] m
  | turn {m m' : LockManager Client Resource Request}
      {w : LockRequest Client Resource Request}
      {gs : List (LockRequest Client Resource Request)}
      (hw : w ∈ (m.waitersOf r).head?) (hs : w.lockType = .shared)
      (h : LoopReturns now r ((m.popWaiter r).applyAcquire now w) gs m') :
    LoopReturns now r m (w :: gs) m'

/-- `_grant_next` returns in the last state after it popped these requests. -/
inductive GrantNextReturns (now : Rat) (r : Resource) : LockManager Client Resource Request →
    List (LockRequest Client Resource Request) → LockManager Client Resource Request → Prop
  | idle {m : LockManager Client Resource Request} (hw : m.waitersOf r = []) :
    GrantNextReturns now r m [] m
  | writer {m : LockManager Client Resource Request} {w : LockRequest Client Resource Request}
      (hw : w ∈ (m.waitersOf r).head?) (hs : w.lockType = .exclusive) :
    GrantNextReturns now r m [w] ((m.popWaiter r).applyAcquire now w)
  | readers {m m' : LockManager Client Resource Request}
      {w : LockRequest Client Resource Request}
      {gs : List (LockRequest Client Resource Request)}
      (hw : w ∈ (m.waitersOf r).head?) (hs : w.lockType = .shared) (h : LoopReturns now r m gs m') :
    GrantNextReturns now r m gs m'

def LockEvent.visit (r : Resource) : LockEvent Client Resource Request → Option (Visit Request)
  | .granted req _ => if req.resourceId = r then some (.serve req.requestId) else none
  | .queued req => if req.resourceId = r then some (.join req.requestId) else none
  | .released _ _ => none
  | .cancelled q resource => if resource = r then some (.leave q) else none

def visits (r : Resource) (h : List (LockEvent Client Resource Request)) : List (Visit Request) :=
  h.filterMap (LockEvent.visit r)

def requested (cs : List (Rat × LockCommand Client Resource Request)) :
    List (LockRequest Client Resource Request) :=
  cs.filterMap fun c =>
    match c.2 with
    | .acquire req => some req
    | _ => none

omit [DecidableEq Client] [DecidableEq Resource] [DecidableEq Request] in
theorem requested_append (cs ds : List (Rat × LockCommand Client Resource Request)) :
    requested (cs ++ ds) = requested cs ++ requested ds :=
  List.filterMap_append ..

/-- Waiting requests are kept and served in order. A command that makes the last holder go calls
`_grant_next` in the state `m.drop client l r`. -/
structure LockManager.ServesInOrder (m : LockManager Client Resource Request) : Prop where
  handOver : ∀ now client r l, m.locks.get? r = some l → l.holderIds.erase client = ∅ →
    l.waiters ≠ [] → ∃ gs m', GrantNextReturns now r (m.drop client l r) gs m' ∧
      m.applyRelease now client r = m' ∧ gs ≠ [] ∧ l.waiters = gs ++ m'.waitersOf r ∧
      m'.history = (gs.map fun req => .granted req now).reverse ++ (m.drop client l r).history
  grantedOnce : (m.grantedRequests.map LockRequest.requestId).Nodup
  queuedOnce : ∀ r q, Visit.join q ∈ visits r m.history → Visit.serve q ∉ visits r m.history →
    ¬ [Visit.leave q, Visit.join q].Sublist (visits r m.history) →
    ((m.waitersOf r).map LockRequest.requestId).count q = 1 ∧
      ∀ r', r' ≠ r → q ∉ (m.waitersOf r').map LockRequest.requestId
  inOrder : ∀ r a b, [Visit.join b, Visit.join a].Sublist (visits r m.history) →
    ¬ [Visit.leave a, Visit.join a].Sublist (visits r m.history) →
    ¬ [Visit.leave b, Visit.join b].Sublist (visits r m.history) →
    ¬ [Visit.serve a, Visit.serve b].Sublist (visits r m.history)

theorem Serves.loopReturns (h : Serves now r m gs m') (hshared : ∀ v ∈ gs, v.lockType = .shared)
    (hstop : ∀ v ∈ (m'.waitersOf r).head?, v.lockType ≠ .shared) : LoopReturns now r m gs m' := by
  induction h with
  | nil => exact .stop hstop
  | cons hl hw _ _ _ ih =>
    have hrest := ih (fun v hv => hshared v (List.mem_cons_of_mem _ hv)) hstop
    exact .turn (by simp [waitersOf_eq hl, hw]) (hshared _ List.mem_cons_self) hrest

/-- On a lock without holders `_grant_next` pops the front of its queue. -/
theorem grantNextReturns (now : Rat) (hl : m.locks.get? r = some l) (hh : l.holderIds = ∅)
    (hf : ∀ v ∈ l.waiters, v.resourceId = r) :
    GrantNextReturns now r m (front l.waiters).1 (m.grantNext now r) := by
  have hserves := serves_next now hl hh hf
  obtain ⟨l', hl', hrest, -⟩ := (served_next now hl hh hf).lock l hl
  cases hw : l.waiters with
  | nil =>
    rw [LockManager.grantNext, waitersOf_eq hl, hw]
    exact .idle (by rw [waitersOf_eq hl, hw])
  | cons v vs =>
    have hhead : v ∈ (m.waitersOf r).head? := by simp [waitersOf_eq hl, hw]
    rw [hw] at hserves hrest
    cases ht : v.lockType with
    | exclusive =>
      rw [LockManager.grantNext, waitersOf_eq hl, hw]
      simp only [front, ht]
      exact .writer hhead ht
    | shared =>
      simp only [front, ht, List.span_eq_takeWhile_dropWhile] at hserves hrest ⊢
      refine .readers hhead ht (hserves.loopReturns (fun u hu => ?_) fun u hu => ?_)
      · have hshared := List.mem_takeWhile_imp hu
        exact of_decide_eq_true hshared
      · rw [waitersOf_eq hl', hrest] at hu
        have hnot := List.head?_dropWhile_not (fun u => decide (u.lockType = .shared)) (v :: vs)
        rw [Option.mem_def.mp hu] at hnot
        exact of_decide_eq_false hnot

section Visits
omit [DecidableEq Client] [DecidableEq Request]

theorem LockEvent.visit_eq_join {e : LockEvent Client Resource Request} :
    e.visit r = some (.join q) ↔ ∃ req, e = .queued req ∧ req.resourceId = r ∧ req.requestId = q := by
  cases e <;> simp [visit]

theorem LockEvent.visit_eq_serve {e : LockEvent Client Resource Request} :
    e.visit r = some (.serve q) ↔
      ∃ req t, e = .granted req t ∧ req.resourceId = r ∧ req.requestId = q := by
  cases e <;> simp [visit]

theorem join_mem_visits :
    Visit.join q ∈ visits r h ↔ ∃ req, .queued req ∈ h ∧ req.resourceId = r ∧ req.requestId = q := by
  simp only [visits, List.mem_filterMap, LockEvent.visit_eq_join]
  grind

theorem serve_mem_visits : Visit.serve q ∈ visits r h ↔
    ∃ req t, .granted req t ∈ h ∧ req.resourceId = r ∧ req.requestId = q := by
  simp only [visits, List.mem_filterMap, LockEvent.visit_eq_serve]
  grind

@[simp] theorem visits_granted (req : LockRequest Client Resource Request) (t : Rat) :
    visits r (.granted req t :: h) =
      if req.resourceId = r then .serve req.requestId :: visits r h else visits r h := by
  by_cases hr : req.resourceId = r <;> simp [visits, LockEvent.visit, hr]

@[simp] theorem visits_queued (req : LockRequest Client Resource Request) :
    visits r (.queued req :: h) =
      if req.resourceId = r then .join req.requestId :: visits r h else visits r h := by
  by_cases hr : req.resourceId = r <;> simp [visits, LockEvent.visit, hr]

@[simp] theorem visits_released (client : Client) (r' : Resource) :
    visits r (.released client r' :: h) = visits r h := rfl

@[simp] theorem visits_cancelled (q : Request) (r' : Resource) :
    visits r (.cancelled q r' :: h) = if r' = r then .leave q :: visits r h else visits r h := by
  by_cases hr : r' = r <;> simp [visits, LockEvent.visit, hr]

theorem served_visits (h : List (LockEvent Client Resource Request)) (r : Resource) :
    Visit.served (visits r h) = ((h.filterMap fun
      | .granted req _ => some req
      | _ => none).filter fun req => req.resourceId = r).map LockRequest.requestId := by
  induction h with
  | nil => rfl
  | cons e h ih =>
    cases e with
    | granted req t => by_cases hr : req.resourceId = r <;> simp [Visit.served, hr] at ih ⊢ <;> exact ih
    | queued req => by_cases hr : req.resourceId = r <;> simpa [Visit.served, hr] using ih
    | released client r' => simpa using ih
    | cancelled q r' => by_cases hr : r' = r <;> simpa [Visit.served, hr] using ih

theorem visits_append (r : Resource) (es h : List (LockEvent Client Resource Request)) :
    visits r (es ++ h) = visits r es ++ visits r h :=
  List.filterMap_append ..

theorem visits_grants (hg : ∀ w ∈ gs, w.resourceId = r) (now : Rat) (r' : Resource) :
    visits r' (gs.map fun req => .granted req now).reverse =
      if r' = r then ((gs.map LockRequest.requestId).map Visit.serve).reverse else [] := by
  unfold visits
  rw [← List.map_reverse, List.filterMap_map]
  by_cases hr : r' = r
  · subst hr
    rw [if_pos rfl, List.map_map, ← List.map_reverse, ← List.filterMap_eq_map]
    refine List.filterMap_congr fun w hw => ?_
    simp [LockEvent.visit, hg w (List.mem_reverse.mp hw)]
  · rw [if_neg hr]
    refine List.filterMap_eq_nil_iff.mpr fun w hw => ?_
    simp [LockEvent.visit, hg w (List.mem_reverse.mp hw), Ne.symm hr]

end Visits

def Table.waiters (T : Table Client Resource Request) (r : Resource) :
    List (LockRequest Client Resource Request) :=
  ((T r).map Held.waiters).getD []

/-- The history tells the queues of the table, and nothing is in either that was not issued. -/
structure Ledger (issued : List (LockRequest Client Resource Request))
    (T : Table Client Resource Request) (h : List (LockEvent Client Resource Request)) :
    Prop where
  queued : ∀ req, .queued req ∈ h → req ∈ issued
  granted : ∀ req t, .granted req t ∈ h → req ∈ issued
  filed : ∀ r, T.waiters r ⊆ issued
  orderly : ∀ r, Visit.Orderly (visits r h)
  waiting : ∀ r, Visit.waiting (visits r h) = (T.waiters r).map LockRequest.requestId

omit [DecidableEq Client] [DecidableEq Request] in
theorem Table.waiters_update {r' : Resource} {v : Option (Held Client Resource Request r')} :
    Table.waiters (Function.update T r' v) r =
      if r = r' then (v.map Held.waiters).getD [] else T.waiters r := by
  unfold Table.waiters
  by_cases hr : r = r'
  · subst hr
    simp
  · simp [hr]

omit [DecidableEq Resource] [DecidableEq Request] in
theorem Held.waiters_release (k : Held Client Resource Request r) (client : Client) :
    ((k.release client).map Held.waiters).getD [] = k.releaseRest client := by
  cases hk : k.release client with
  | none => exact (Held.release_none hk).symm
  | some k' => exact (Held.release_some hk).1

omit [DecidableEq Resource] [DecidableEq Request] in
theorem Held.releaseGrants_append (k : Held Client Resource Request r) (client : Client) :
    k.releaseGrants client ++ k.releaseRest client = k.waiters := by
  unfold Held.releaseGrants Held.releaseRest
  split
  · rfl
  · exact front_append k.waiters

namespace Ledger
variable {req : LockRequest Client Resource Request}

omit [DecidableEq Client] in
theorem new (hL : Ledger issued T h) (hq : q ∉ issued.map LockRequest.requestId) (r : Resource) :
    Visit.New (visits r h) q := by
  constructor
  · intro hj
    obtain ⟨req, he, -, rfl⟩ := join_mem_visits.mp hj
    exact hq (List.mem_map_of_mem (hL.queued req he))
  · intro hs
    obtain ⟨req, t, he, -, rfl⟩ := serve_mem_visits.mp hs
    exact hq (List.mem_map_of_mem (hL.granted req t he))

omit [DecidableEq Client] in
theorem issue (hL : Ledger issued T h) (req : LockRequest Client Resource Request) :
    Ledger (issued ++ [req]) T h :=
  { hL with
    queued := fun v hv => List.mem_append_left _ (hL.queued v hv)
    granted := fun v t hv => List.mem_append_left _ (hL.granted v t hv)
    filed := fun r => List.subset_append_of_subset_left _ (hL.filed r) }

theorem grant (hL : Ledger issued T h) (hq : req.requestId ∉ issued.map LockRequest.requestId)
    (now : Rat) : Ledger (issued ++ [req])
      (Function.update T req.resourceId (some (Held.grant (T req.resourceId) req)))
      (.granted req now :: h) := by
  have hsame (r : Resource) : Table.waiters (Function.update T req.resourceId
      (some (Held.grant (T req.resourceId) req))) r = T.waiters r := by
    rw [Table.waiters_update]
    split
    · subst r
      rfl
    · rfl
  constructor
  case queued => exact fun v hv => (hL.issue req).queued v (by simpa using hv)
  case granted =>
    intro v t hv
    cases List.mem_cons.mp hv with
    | inl he =>
      cases he
      exact List.mem_concat_self
    | inr hv => exact (hL.issue req).granted v t hv
  case filed => exact fun r => hsame r ▸ (hL.issue req).filed r
  case orderly =>
    intro r
    rw [visits_granted]
    split
    · exact .serveNew (hL.new hq r) (hL.orderly r)
    · exact hL.orderly r
  case waiting =>
    intro r
    rw [visits_granted, hsame, ← hL.waiting]
    split
    · have hnot := (hL.orderly r).not_mem_waiting (hL.new hq r)
      exact List.filter_eq_self.mpr fun j hj => decide_eq_true fun he => hnot (he ▸ hj)
    · rfl

omit [DecidableEq Client] in
theorem queue (hL : Ledger issued T h) (hq : req.requestId ∉ issued.map LockRequest.requestId)
    {k : Held Client Resource Request req.resourceId} (hT : T req.resourceId = some k) :
    Ledger (issued ++ [req]) (Function.update T req.resourceId (some (k.queue req rfl)))
      (.queued req :: h) := by
  have hmore (r : Resource) : Table.waiters (Function.update T req.resourceId
      (some (k.queue req rfl))) r =
        if req.resourceId = r then T.waiters r ++ [req] else T.waiters r := by
    rw [Table.waiters_update]
    by_cases hr : req.resourceId = r
    · subst hr
      simp [Table.waiters, hT, Held.queue]
    · rw [if_neg hr, if_neg (Ne.symm hr)]
  constructor
  case queued =>
    intro v hv
    cases List.mem_cons.mp hv with
    | inl he =>
      cases he
      exact List.mem_concat_self
    | inr hv => exact (hL.issue req).queued v hv
  case granted => exact fun v t hv => (hL.issue req).granted v t (by simpa using hv)
  case filed =>
    intro r
    rw [hmore]
    split
    · exact List.append_subset.mpr ⟨(hL.issue req).filed r, List.subset_append_right _ _⟩
    · exact (hL.issue req).filed r
  case orderly =>
    intro r
    rw [visits_queued]
    split
    · exact .join (hL.new hq r) (hL.orderly r)
    · exact hL.orderly r
  case waiting =>
    intro r
    rw [visits_queued, hmore]
    split
    · rw [Visit.waiting, hL.waiting, List.map_append, List.map_singleton]
    · exact hL.waiting r

omit [DecidableEq Client] in
theorem cancel (hL : Ledger issued T h) (q : Request) (r' : Resource) :
    Ledger issued (Function.update T r' ((T r').map fun l => l.cancel q))
      (.cancelled q r' :: h) := by
  have hless (r : Resource) : Table.waiters (Function.update T r'
      ((T r').map fun l => l.cancel q)) r =
        if r' = r then (T.waiters r).filter fun w => w.requestId ≠ q else T.waiters r := by
    rw [Table.waiters_update]
    by_cases hr : r' = r
    · subst hr
      cases hT : T r' <;> simp [Table.waiters, hT, Held.cancel]
    · rw [if_neg hr, if_neg (Ne.symm hr)]
  constructor
  case queued => exact fun v hv => hL.queued v (by simpa using hv)
  case granted => exact fun v t hv => hL.granted v t (by simpa using hv)
  case filed =>
    intro r
    rw [hless]
    split
    · exact fun w hw => hL.filed r (List.mem_filter.mp hw).1
    · exact hL.filed r
  case orderly =>
    intro r
    rw [visits_cancelled]
    split
    · exact .leave (hL.orderly r)
    · exact hL.orderly r
  case waiting =>
    intro r
    rw [visits_cancelled, hless]
    split
    · rw [Visit.waiting, hL.waiting, List.filter_map]
      rfl
    · exact hL.waiting r

theorem release (hL : Ledger issued T h) (client : Client)
    {k : Held Client Resource Request r} (hT : T r = some k) (now : Rat) :
    Ledger issued (Function.update T r (k.release client))
      (((k.releaseGrants client).map fun req => .granted req now).reverse ++
        .released client r :: h) := by
  have hfront : T.waiters r = k.releaseGrants client ++ k.releaseRest client := by
    rw [k.releaseGrants_append, Table.waiters, hT]
    rfl
  have hrest (r' : Resource) : Table.waiters (Function.update T r (k.release client)) r' =
      if r' = r then k.releaseRest client else T.waiters r' := by
    rw [Table.waiters_update, k.waiters_release]
  have hvisits (r' : Resource) : visits r' (((k.releaseGrants client).map fun req =>
      .granted req now).reverse ++ .released client r :: h) =
        if r' = r then
          (((k.releaseGrants client).map LockRequest.requestId).map Visit.serve).reverse ++
            visits r' h
        else visits r' h := by
    rw [visits_append, visits_grants (fun w hw => k.resourceId_of_mem_grants hw), visits_released]
    split <;> rfl
  have hserved := (hL.orderly r).serveAll ((hL.waiting r).trans (by rw [hfront, List.map_append]))
  constructor
  case queued => exact fun v hv => hL.queued v (by simpa using hv)
  case granted =>
    intro v t hv
    cases List.mem_append.mp hv with
    | inl hv =>
      obtain ⟨w, hw, he⟩ := List.mem_map.mp (List.mem_reverse.mp hv)
      cases he
      exact hL.filed r (hfront ▸ List.mem_append_left _ hw)
    | inr hv => exact hL.granted v t (by simpa using hv)
  case filed =>
    intro r'
    rw [hrest]
    split
    · exact fun w hw => hL.filed r (hfront ▸ List.mem_append_right _ hw)
    · exact hL.filed r'
  case orderly =>
    intro r'
    rw [hvisits]
    split
    · subst r'
      exact hserved.1
    · exact hL.orderly r'
  case waiting =>
    intro r'
    rw [hvisits, hrest]
    split
    · subst r'
      exact hserved.2
    · exact hL.waiting r'

section Step
variable (hL : Ledger issued T m.history) (hm : Refines m T) (now : Rat)
include hL hm

theorem applyAcquire (hq : req.requestId ∉ issued.map LockRequest.requestId) :
    Ledger (issued ++ [req])
      (Function.update T req.resourceId (some (Held.acquire (T req.resourceId) req rfl)))
      (m.applyAcquire now req).history := by
  rw [hm.acquire_history now req]
  unfold Held.acquire
  by_cases hc : Held.Admits (T req.resourceId) req.lockType
  · rw [if_pos hc, if_pos hc]
    exact hL.grant hq now
  · rw [if_neg hc, if_neg hc]
    cases hT : T req.resourceId with
    | none => exact absurd (fun l hl => by rw [hT] at hl; cases hl) hc
    | some k => exact hL.queue hq hT

theorem applyRelease (client : Client) (r : Resource) :
    Ledger issued (Function.update T r ((T r).bind fun l => l.release client))
      (m.applyRelease now client r).history := by
  cases hT : T r with
  | none =>
    have hsame : Function.update T r none = T := by rw [← hT, Function.update_eq_self]
    rw [hm.release_free client hT, Option.bind_none, hsame]
    exact hL
  | some k =>
    rw [(hm.release now client hT).2.2]
    exact hL.release client hT now

theorem apply (cmd : LockCommand Client Resource Request)
    (hn : ((issued ++ requested [(now, cmd)]).map LockRequest.requestId).Nodup) :
    Ledger (issued ++ requested [(now, cmd)]) (T.apply cmd) (m.applyCommand now cmd).history := by
  cases cmd with
  | acquire req =>
    refine hL.applyAcquire hm now fun hq => ?_
    rw [List.map_append] at hn
    exact List.disjoint_of_nodup_append hn hq List.mem_cons_self
  | release client r =>
    rw [show requested [(now, LockCommand.release client r)] = [] from rfl, List.append_nil]
    exact hL.applyRelease hm now client r
  | cancel q client r =>
    rw [show requested [(now, LockCommand.cancel q client r)] = [] from rfl, List.append_nil,
      LockManager.applyCommand, LockManager.applyCancel, resolveFuture_history]
    exact hL.cancel q r
  | abort client r =>
    rw [show requested [(now, LockCommand.abort client r)] = [] from rfl, List.append_nil]
    exact hL.applyRelease hm now client r

end Step

theorem run (hL : Ledger issued T m.history) (hm : Refines m T)
    {cs : List (Rat × LockCommand Client Resource Request)}
    (hn : ((issued ++ requested cs).map LockRequest.requestId).Nodup)
    (hr : (manager Client Resource Request).run m cs = some m') :
    ∃ T', Refines m' T' ∧ Ledger (issued ++ requested cs) T' m'.history := by
  induction cs generalizing m T issued with
  | nil =>
    cases hr
    exact ⟨T, hm, by simpa [requested] using hL⟩
  | cons c cs ih =>
    have hsplit : issued ++ requested (c :: cs) = issued ++ requested [c] ++ requested cs := by
      rw [List.append_assoc, ← requested_append]
      rfl
    rw [hsplit] at hn ⊢
    rw [List.map_append] at hn
    exact ih (hL.apply hm c.1 c.2 (List.nodup_append.mp hn).1) (hm.apply c.1 c.2)
      (by rwa [List.map_append]) hr

section Results
variable (hL : Ledger issued T h) (hn : (issued.map LockRequest.requestId).Nodup)
omit [DecidableEq Client]
include hL hn

theorem resource_unique {r' : Resource} (hq : Visit.join q ∈ visits r h)
    (hq' : Visit.join q ∈ visits r' h) : r = r' := by
  obtain ⟨req, he, rfl, rfl⟩ := join_mem_visits.mp hq
  obtain ⟨req', he', rfl, hid⟩ := join_mem_visits.mp hq'
  rw [List.inj_on_of_nodup_map hn (hL.queued req he) (hL.queued req' he') hid.symm]

theorem queuedOnce (hj : Visit.join q ∈ visits r h) (hs : Visit.serve q ∉ visits r h)
    (hl : ¬ [Visit.leave q, Visit.join q].Sublist (visits r h)) :
    ((T.waiters r).map LockRequest.requestId).count q = 1 ∧
      ∀ r', r' ≠ r → q ∉ (T.waiters r').map LockRequest.requestId := by
  have hw := (hL.orderly r).mem_waiting.mpr ⟨hj, hs, hl⟩
  constructor
  · rw [← hL.waiting]
    exact List.count_eq_one_of_mem (hL.orderly r).nodup_waiting hw
  · intro r' hr hq
    rw [← hL.waiting] at hq
    exact hr (hL.resource_unique hn ((hL.orderly r').mem_waiting.mp hq).1 hj)

theorem grantedOnce (hm : m.history = h) :
    (m.grantedRequests.map LockRequest.requestId).Nodup := by
  refine Visit.nodup_map_of_filter (g := LockRequest.resourceId) (fun r => ?_) fun a ha b hb he => ?_
  · have hserved := (hL.orderly r).nodup_served
    rw [served_visits, ← hm] at hserved
    exact hserved
  · have hissued (req : LockRequest Client Resource Request) (hreq : req ∈ m.grantedRequests) :
        req ∈ issued := by
      obtain ⟨e, hx, hreq⟩ := List.mem_filterMap.mp hreq
      cases e <;> cases hreq
      exact hL.granted req _ (hm ▸ hx)
    rw [List.inj_on_of_nodup_map hn (hissued a ha) (hissued b hb) he]

end Results
end Ledger

omit [DecidableEq Client] [DecidableEq Request] in
theorem Refines.waitersOf (hm : Refines m T) (r : Resource) : m.waitersOf r = T.waiters r := by
  unfold Table.waiters
  cases hT : T r with
  | none => simp [LockManager.waitersOf, hm.free r hT]
  | some k =>
    obtain ⟨l, hl, hs⟩ := hm.held r k hT
    rw [waitersOf_eq hl, hs.waiters]
    rfl

/-- Every call of `_grant_next` returns and grants whom it pops, the first of the queue. -/
theorem Refines.handOver (hm : Refines m T) (now : Rat) (client : Client)
    (hl : m.locks.get? r = some l) (hh : l.holderIds.erase client = ∅) (hw : l.waiters ≠ []) :
    ∃ gs m', GrantNextReturns now r (m.drop client l r) gs m' ∧
      m.applyRelease now client r = m' ∧ gs ≠ [] ∧ l.waiters = gs ++ m'.waitersOf r ∧
      m'.history =
        (gs.map fun req => .granted req now).reverse ++ (m.drop client l r).history := by
  have hdrop := drop_lock (m := m) (r := r) client l
  have hfiled := hm.filed hl
  have hserved := served_next now hdrop hh hfiled
  obtain ⟨l', hl', hrest, -⟩ := hserved.lock _ hdrop
  have hcall : m.applyRelease now client r = (m.drop client l r).grantNext now r := by
    rw [applyRelease_of_held hl, if_pos ⟨hh, hw⟩]
  have hreturns := grantNextReturns now hdrop hh hfiled
  refine ⟨_, _, hreturns, hcall, front_ne_nil hw, ?_, hserved.history⟩
  rw [waitersOf_eq hl', hrest, front_append]

/-- However commands whose requests have ids of their own are applied, a hand-over serves the
first in the queue, and nobody is served twice, lost or overtaken. -/
theorem servesInOrder {cs : List (Rat × LockCommand Client Resource Request)}
    (hn : ((requested cs).map LockRequest.requestId).Nodup)
    (hm : (manager Client Resource Request).run (manager Client Resource Request).init cs = some m) :
    m.ServesInOrder := by
  have hL : Ledger [] Table.free (manager Client Resource Request).init.history :=
    { queued := fun req hx => by cases hx
      granted := fun req t hx => by cases hx
      filed := fun r => List.Subset.refl _
      orderly := fun r => .nil
      waiting := fun r => rfl }
  obtain ⟨T, href, hL⟩ := hL.run refines_init hn hm
  rw [List.nil_append] at hL
  constructor
  case handOver => exact fun now client r l hl hh hw => href.handOver now client hl hh hw
  case grantedOnce => exact hL.grantedOnce hn rfl
  case queuedOnce =>
    intro r q hj hs hl
    simpa only [href.waitersOf] using hL.queuedOnce hn hj hs hl
  case inOrder => exact fun r a b hs ha _ => (hL.orderly r).served_in_order hs ha

/-- Readers 1 and 3 queue behind holder 0 with writer 2 between them, who gives up, and writer 4
after them. -/
def closedRanks : List (Rat × LockCommand Nat Nat Nat) :=
  [(0, .acquire { requestId := 0, clientId := 0, resourceId := 0, lockType := .exclusive }),
   (1, .acquire { requestId := 1, clientId := 1, resourceId := 0, lockType := .shared }),
   (2, .acquire { requestId := 2, clientId := 2, resourceId := 0, lockType := .exclusive }),
   (3, .acquire { requestId := 3, clientId := 3, resourceId := 0, lockType := .shared }),
   (4, .acquire { requestId := 4, clientId := 4, resourceId := 0, lockType := .exclusive }),
   (5, .cancel 2 2 0), (6, .release 0 0)]

theorem servesInOrder_closedRanks : ∃ m, (manager Nat Nat Nat).run (manager Nat Nat Nat).init
    closedRanks = some m ∧ visits 0 m.history = [.serve 3, .serve 1, .leave 2, .join 4, .join 3,
      .join 2, .join 1, .serve 0] ∧ m.ServesInOrder := by
  have hrun : ((manager Nat Nat Nat).run (manager Nat Nat Nat).init closedRanks).any (fun m =>
      visits 0 m.history = [.serve 3, .serve 1, .leave 2, .join 4, .join 3, .join 2, .join 1,
        .serve 0]) = true := by
    decide +kernel
  obtain ⟨m, hm, hv⟩ := (Option.any_eq_true ..).mp hrun
  exact ⟨m, hm, of_decide_eq_true hv, servesInOrder (by decide) hm⟩

end DistSync.Locking
