import DistSync.Locking.Deadlock

/-! Lost wake-ups. Waiters are looked at again only when the last holder leaves, so a reader
that moves to the front of the queue because others gave up stays there, though it could join
the readers that hold the lock. -/
namespace DistSync.Locking
variable {Client Resource Request : Type}
  [DecidableEq Client] [DecidableEq Resource] [DecidableEq Request]
variable {m : LockManager Client Resource Request} {T : Table Client Resource Request} {now : Rat}

/-- No first waiter could be granted: its lock is held, and exclusively if it wants to share. -/
def LockManager.NoLostWakeUp (m : LockManager Client Resource Request) : Prop :=
  ∀ r l, m.locks.get? r = some l → ∀ w ∈ l.waiters.head?,
    l.holderIds ≠ ∅ ∧ (w.lockType = .shared → l.lockType = .exclusive)

/-- The first waiter of a lock held by readers that is not cancelled is not a reader. -/
def KeepsReadersOut (m : LockManager Client Resource Request) :
    LockCommand Client Resource Request → Prop
  | .acquire _ => True
  | .release _ _ => True
  | .cancel q _ r => ∀ l ∈ m.locks.get? r, l.lockType = .shared →
      ∀ w ∈ l.waiters.find? fun w => w.requestId ≠ q, w.lockType ≠ .shared
  | .abort _ _ => True

instance (m : LockManager Client Resource Request) (c : LockCommand Client Resource Request) :
    Decidable (KeepsReadersOut m c) :=
  match c with
  | .acquire _ => .isTrue trivial
  | .release _ _ => .isTrue trivial
  | .cancel _ _ _ => inferInstanceAs (Decidable (∀ l ∈ _, _ → ∀ w ∈ _, _))
  | .abort _ _ => .isTrue trivial

omit [DecidableEq Client] [DecidableEq Resource] [DecidableEq Request] in
/-- Who is left at the front of a hand-over does not fit those served. -/
theorem frontType_of_head_shared {ws : List (LockRequest Client Resource Request)}
    {w : LockRequest Client Resource Request} (hw : w ∈ (front ws).2.head?)
    (hs : w.lockType = .shared) : frontType ws = .exclusive := by
  cases ws with
  | nil => cases hw
  | cons v ws =>
    cases ht : v.lockType with
    | exclusive => simp [frontType, ht]
    | shared =>
      simp only [front, ht, List.span_eq_takeWhile_dropWhile] at hw
      have hnot := List.head?_dropWhile_not (fun v : LockRequest Client Resource Request =>
        decide (v.lockType = .shared)) (v :: ws)
      rw [Option.mem_def.mp hw] at hnot
      simp [hs] at hnot

def Held.HeadBlocked {r : Resource} (k : Held Client Resource Request r) : Prop :=
  ∀ w ∈ k.waiters.head?, w.lockType = .shared → k.lockType = .exclusive

section Held
variable {r : Resource} {k : Held Client Resource Request r}
  {req : LockRequest Client Resource Request}
omit [DecidableEq Request] [DecidableEq Resource]

theorem Held.HeadBlocked.grant {h : Option (Held Client Resource Request r)}
    (hk : ∀ k, h = some k → k.HeadBlocked) (hc : Held.Admits h req.lockType) :
    (Held.grant h req).HeadBlocked := by
  cases h with
  | none => exact fun w hw => by cases hw
  | some k =>
    intro w hw hs
    have hshared := (hc k rfl).2
    rw [hk k rfl w hw hs] at hshared
    cases hshared

omit [DecidableEq Client] in
theorem Held.HeadBlocked.queue (hk : k.HeadBlocked) (hr : req.resourceId = r)
    (hc : ¬ Held.Admits (some k) req.lockType) : (k.queue req hr).HeadBlocked := by
  intro w hw hs
  unfold Held.queue at hw ⊢
  dsimp only at hw ⊢
  cases hq : k.waiters with
  | nil =>
    rw [hq] at hw
    cases hw
    cases ht : k.lockType with
    | exclusive => rfl
    | shared => exact absurd (fun l hl => by cases hl; exact ⟨hs, ht⟩) hc
  | cons v vs =>
    rw [hq] at hw
    exact hk w (by rw [hq]; exact hw) hs

theorem Held.HeadBlocked.release (hk : k.HeadBlocked) (client : Client)
    {k' : Held Client Resource Request r} (h : k.release client = some k') : k'.HeadBlocked := by
  unfold Held.release at h
  split at h
  · cases h
    exact hk
  · split at h
    · cases h
      exact fun w hw hs => frontType_of_head_shared hw hs
    · cases h

end Held

section Step
variable (h : Refines m T)
include h

omit [DecidableEq Client] [DecidableEq Request] in
theorem Refines.noLostWakeUp_iff :
    m.NoLostWakeUp ↔ ∀ r k, T r = some k → k.HeadBlocked := by
  constructor
  · intro hm r k hk w hw hs
    obtain ⟨l, hl, hshows⟩ := h.held r k hk
    exact hshows.lockType ▸ (hm r l hl w (hshows.waiters ▸ hw)).2 hs
  · intro hk r l hl w hw
    obtain ⟨k, hT, hshows⟩ := h.lock hl
    refine ⟨hshows.holders ▸ k.held.ne_empty, fun hs => ?_⟩
    exact hshows.lockType.trans (hk r k hT w (hshows.waiters ▸ hw) hs)

theorem Refines.noLostWakeUp_apply (hm : m.NoLostWakeUp)
    (c : LockCommand Client Resource Request) :
    (m.applyCommand now c).NoLostWakeUp ↔ KeepsReadersOut m c := by
  have hk := h.noLostWakeUp_iff.mp hm
  rw [(h.apply now c).noLostWakeUp_iff]
  have hrelease (client : Client) (r : Resource) (r' : Resource)
      (k : Held Client Resource Request r')
      (hk' : Function.update T r ((T r).bind fun l => l.release client) r' = some k) :
      k.HeadBlocked := by
    revert r' k
    refine forall_update.mpr ⟨fun k' hk' => ?_, fun r' _ => hk r'⟩
    obtain ⟨k, hT, hr⟩ := Option.bind_eq_some_iff.mp hk'
    exact (hk r k hT).release client hr
  cases c with
  | acquire req =>
    refine iff_of_true (forall_update.mpr ⟨fun k' hk' => ?_, fun r' _ => hk r'⟩) trivial
    cases hk'
    unfold Held.acquire
    split
    · rename_i hc
      exact .grant (hk req.resourceId) hc
    · rename_i hc
      split
      · exact fun w hw => by cases hw
      · rename_i k hT
        exact (hk _ k hT).queue rfl (hT ▸ hc)
  | release client r => exact iff_of_true (hrelease client r) trivial
  | cancel q client r =>
    have hother : ∀ r', r' ≠ r → ∀ k, T r' = some k → k.HeadBlocked := fun r' _ => hk r'
    refine (forall_update.trans (and_iff_left hother)).trans ?_
    unfold KeepsReadersOut
    cases hT : T r with
    | none => simp [h.free r hT]
    | some k =>
      obtain ⟨l, hl, hshows⟩ := h.held r k hT
      simp only [Option.map_some, Option.some.injEq, forall_eq', Held.HeadBlocked, Held.cancel,
        List.head?_filter, hl, Option.mem_def, hshows.lockType, hshows.waiters]
      cases ht : k.lockType <;> simp
  | abort client r => exact iff_of_true (hrelease client r) trivial

end Step

/-- No wake-up is lost in a run exactly if no cancelled request leaves a reader at the front of
the queue of a lock that readers hold. -/
theorem noLostWakeUp_along_iff (cs : List (Rat × LockCommand Client Resource Request)) :
    (manager Client Resource Request).Along (fun _ _ t => t.NoLostWakeUp)
        (manager Client Resource Request).init cs ↔
      (manager Client Resource Request).Along (fun s c _ => KeepsReadersOut s c.2)
        (manager Client Resource Request).init cs := by
  refine System.along_invariant_iff (I := LockManager.NoLostWakeUp) (fun s c t hr hm hs => ?_)
    .init (fun r l hl => by cases hl) cs
  obtain ⟨T, hT⟩ := exists_refines hr
  cases hs
  exact hT.noLostWakeUp_apply hm c.2

/-- Client 0 hands over to reader 1, before writer 2 and reader 3, and the writer gives up. -/
def writerGaveUp : List (Rat × LockCommand Nat Nat Nat) :=
  [(0, exclusive 0 0 0),
   (1, .acquire { requestId := 1, clientId := 1, resourceId := 0, lockType := .shared }),
   (2, exclusive 2 2 0),
   (3, .acquire { requestId := 3, clientId := 3, resourceId := 0, lockType := .shared }),
   (4, .release 0 0), (5, .cancel 2 2 0)]

theorem not_noLostWakeUp_writerGaveUp : ∃ m, (manager Nat Nat Nat).run
    (manager Nat Nat Nat).init writerGaveUp = some m ∧ ¬ m.NoLostWakeUp := by
  have hrun : ((manager Nat Nat Nat).run (manager Nat Nat Nat).init writerGaveUp).any
      (fun m => ∃ l ∈ m.locks.get? 0, ∃ w ∈ l.waiters.head?,
        w.lockType = .shared ∧ l.lockType = .shared) = true := by
    decide +kernel
  obtain ⟨m, hm, hh⟩ := (Option.any_eq_true ..).mp hrun
  obtain ⟨l, hl, w, hw, hs, ht⟩ := of_decide_eq_true hh
  refine ⟨m, hm, fun hno => ?_⟩
  rw [(hno 0 l hl w hw).2 hs] at ht
  cases ht

end DistSync.Locking
