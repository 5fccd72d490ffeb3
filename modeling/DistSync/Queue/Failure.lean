import DistSync.Queue.Delivery

/-! A push that raises. `negative_acknowledge` takes its message out of flight before the Redis
command: if this fails, nobody has the message any more, and the timeout checker, if the push was
its, ends. -/
namespace DistSync.Queue
variable {Node Payload : Type} [DecidableEq Node] {cfg : Config Node Payload}

/-- The queue nodes, on which nodes the timeout checker has ended, and, newest first, the messages
of the pushes that raised; no code reads these. -/
structure Faulty (Node Payload : Type) where
  service : Service Node Payload := {}
  stopped : Node → Bool := fun _ => false
  lost : List (Message Node Payload) := []

inductive FaultyAction (Node Payload : Type) where
  | act (a : Action Node Payload)
  | raise (n : Node) (k : Nat)

namespace Faulty
variable (cfg) (f : Faulty Node Payload)

/-- The timeout checker has ended, so it does not wake up. -/
def ended : Action Node Payload → Bool
  | .checkTimeouts n _ => f.stopped n
  | _ => false

def act (a : Action Node Payload) : Option (Faulty Node Payload) :=
  if f.ended a then none
  else (f.service.step cfg a).map fun t => { f with service := t }

/-- The push that the `k`-th coroutine of `n` awaits raises, and had no effect in Redis. -/
def raise (n : Node) (k : Nat) : Option (Faulty Node Payload) :=
  match (f.service.nodes n).calls[k]? with
  | some (.requeue msg timedOut) => some
    { service := f.service.move n ((f.service.nodes n).wake k) f.service.redis []
      stopped := if timedOut.isSome then Function.update f.stopped n true else f.stopped
      lost := msg :: f.lost }
  | _ => none

def step : FaultyAction Node Payload → Option (Faulty Node Payload)
  | .act a => f.act cfg a
  | .raise n k => f.raise n k

end Faulty

def faultyQueue (cfg : Config Node Payload) :
    System (Faulty Node Payload) (FaultyAction Node Payload) where
  init := {}
  step f a := f.step cfg a

def Faulty.Retains (f : Faulty Node Payload) (n : Node) (m : Message Node Payload) : Prop :=
  (f.service.nodes n).inFlight.get? m.messageId = some m

instance [DecidableEq Payload] (f : Faulty Node Payload) (n : Node) (m : Message Node Payload) :
    Decidable (f.Retains n m) :=
  inferInstanceAs (Decidable (_ = _))

/-- What `negative_acknowledge` pushes. -/
def Message.nacked (m : Message Node Payload) : Message Node Payload :=
  { m with retryCount := m.retryCount + 1 }

def Service.Lost (s : Service Node Payload) (messageId : String) : Prop :=
  ∀ i, ∀ m ∈ s.box i, m.messageId ≠ messageId

section History
variable {s t : Service Node Payload} {a : Action Node Payload}

def Service.rewrite (s : Service Node Payload) (h : List (Event Node Payload)) :
    Service Node Payload :=
  { s with history := h }

/-- A step reads no more of the books than which messages were created. -/
theorem step_rewrite (hs : (queue cfg).step s a = some t) {h : List (Event Node Payload)}
    (hids : createdIds h = createdIds s.history) :
    ∃ evs, t.history = evs ++ s.history ∧
      (queue cfg).step (s.rewrite h) a = some (t.rewrite (evs ++ h)) := by
  cases a with
  | produce n topic payload key headers messageId timestamp =>
    simp only [queue, Service.step, Service.produce, Service.rewrite, hids] at hs ⊢
    split at hs
    · cases hs
    · rename_i hfresh
      cases hs
      exact ⟨_, rfl, if_neg hfresh⟩
  | produceBatch n topic items =>
    simp only [queue, Service.step, Service.produceBatch, Service.rewrite, hids] at hs ⊢
    split at hs
    · rename_i hfresh
      cases hs
      exact ⟨_, rfl, if_pos hfresh⟩
    · cases hs
  | consume n topic groupId consumerId partitions batchSize =>
    cases hs
    exact ⟨_, rfl, rfl⟩
  | acknowledge n messageId =>
    simp only [queue, Service.step, Service.acknowledge, Service.rewrite] at hs ⊢
    split at hs
    · cases hs
      exact ⟨_, rfl, rfl⟩
    · cases hs
      exact ⟨[], rfl, rfl⟩
  | negativeAcknowledge n messageId =>
    simp only [queue, Service.step, Service.negativeAcknowledge, Service.rewrite] at hs ⊢
    split at hs
    · cases hs
      exact ⟨_, rfl, rfl⟩
    · cases hs
      exact ⟨[], rfl, rfl⟩
  | checkTimeouts n now =>
    simp only [queue, Service.step, Service.checkTimeouts, Service.rewrite] at hs ⊢
    split at hs
    · cases hs
    · rename_i hidle
      cases hs
      exact ⟨_, rfl, if_neg hidle⟩
  | resume n k =>
    simp only [queue, Service.step, Service.resume] at hs ⊢
    obtain ⟨call, hk, rfl⟩ := Option.map_eq_some_iff.mp hs
    rw [Service.rewrite, hk, Option.map_some]
    cases call with
    | lpop topic p rest batchSize messages =>
      dsimp only
      cases s.redis.queue (topic, p) with
      | nil => exact ⟨_, rfl, rfl⟩
      | cons raw tail => exact ⟨_, rfl, rfl⟩
    | _ => exact ⟨_, rfl, rfl⟩

end History

section Step
variable {f g : Faulty Node Payload}

theorem Faulty.act_eq_some {a : Action Node Payload} (h : f.act cfg a = some g) :
    f.ended a = false ∧
      ∃ t, (queue cfg).step f.service a = some t ∧ g = { f with service := t } := by
  unfold Faulty.act at h
  split at h
  · cases h
  · rename_i hended
    obtain ⟨t, ht, rfl⟩ := Option.map_eq_some_iff.mp h
    exact ⟨Bool.eq_false_iff.mpr hended, t, ht, rfl⟩

theorem Faulty.raise_eq_some {n : Node} {k : Nat} (h : f.raise n k = some g) :
    ∃ msg timedOut, (f.service.nodes n).calls[k]? = some (.requeue msg timedOut) ∧
      g = { service := f.service.move n ((f.service.nodes n).wake k) f.service.redis []
            stopped := if timedOut.isSome then Function.update f.stopped n true else f.stopped
            lost := msg :: f.lost } := by
  unfold Faulty.raise at h
  split at h
  · rename_i msg timedOut hk
    exact ⟨msg, timedOut, hk, (Option.some.inj h).symm⟩
  · cases h

/-- Books in which the lost messages count as done with are right. -/
def Faulty.Accounted (f : Faulty Node Payload) : Prop :=
  ∃ h place, Kept (f.service.rewrite h) place ∧ createdIds h = createdIds f.service.history ∧
    (acknowledgedMessages h).Perm (f.lost ++ acknowledgedMessages f.service.history)

theorem Faulty.Accounted.act (hf : f.Accounted) {t : Service Node Payload} {a : Action Node Payload}
    (hs : (queue cfg).step f.service a = some t) : { f with service := t }.Accounted := by
  obtain ⟨h, place, hkept, hids, hdone⟩ := hf
  obtain ⟨evs, hevs, hstep⟩ := step_rewrite hs hids
  obtain ⟨place', hkept'⟩ := hkept.step hstep
  refine ⟨evs ++ h, place', hkept', ?_, ?_⟩
  · simp only [hevs, createdIds_append, hids]
  · simp only [hevs, acknowledgedMessages_append]
    refine (hdone.append_left _).trans ?_
    rw [← List.append_assoc, ← List.append_assoc]
    exact List.perm_append_comm.append_right _

theorem Faulty.Accounted.raise (hf : f.Accounted) {n : Node} {k : Nat}
    (hs : f.raise n k = some g) : g.Accounted := by
  obtain ⟨msg, timedOut, hk, rfl⟩ := Faulty.raise_eq_some hs
  obtain ⟨h, place, hkept, hids, hdone⟩ := hf
  have hwake := shelf_wake (f.service.nodes n) hk
  -- who settles the books writes the message off
  have hleft : ∃ place, Kept ((f.service.rewrite h).move n ((f.service.nodes n).wake k)
      f.service.redis [.acknowledged n msg]) place := by
    refine hkept.leave .carried .done msg (by decide) nofun nofun nofun (fun sh => ?_)
      (f.service.redis.gains_done msg) rfl (hkept.keyed n) rfl (by simp)
    have hcall := hwake sh
    cases sh <;> exact hcall
  obtain ⟨place', hkept'⟩ := hleft
  exact ⟨_, place', hkept', hids, hdone.cons msg⟩

theorem accounted_reach (h : (faultyQueue cfg).Reachable f) : f.Accounted := by
  have hkept : Kept (queue cfg).init fun _ => none := Kept.init
  have hstart : ((faultyQueue cfg).init).Accounted := ⟨[], _, hkept, rfl, .refl _⟩
  refine h.invariant (I := Faulty.Accounted) hstart fun f a g _ hf _ hs => ?_
  cases a with
  | act a =>
    obtain ⟨-, t, ht, rfl⟩ := Faulty.act_eq_some hs
    exact hf.act ht
  | raise n k => exact hf.raise hs

theorem Faulty.Accounted.lost (hf : f.Accounted) {m : Message Node Payload} (hm : m ∈ f.lost) :
    f.service.Lost m.messageId := by
  obtain ⟨h, place, hkept, -, hdone⟩ := hf
  have hbox : m ∈ (f.service.rewrite h).box .done := hdone.symm.subset (List.mem_append_left _ hm)
  have hplace := hkept.custody.place_of_mem hbox
  intro i x hx hid
  cases i with
  | done =>
    have hnodup := (hdone.map Message.messageId).nodup_iff.mp (hkept.custody.nodup .done)
    rw [List.map_append, List.nodup_append] at hnodup
    exact hnodup.2.2 _ (List.mem_map_of_mem hm) _ (List.mem_map_of_mem hx) hid.symm
  | node n sh =>
    have hx' := hkept.custody.place_of_mem (i := .node n sh) hx
    rw [hid, hplace] at hx'
    cases hx'
  | queue home =>
    have hx' := hkept.custody.place_of_mem (i := .queue home) hx
    rw [hid, hplace] at hx'
    cases hx'
  | dead home =>
    have hx' := hkept.custody.place_of_mem (i := .dead home) hx
    rw [hid, hplace] at hx'
    cases hx'

theorem Faulty.step_mono {a : FaultyAction Node Payload}
    (hs : (faultyQueue cfg).step f a = some g) :
    f.lost ⊆ g.lost ∧ ∀ n, f.stopped n = true → g.stopped n = true := by
  cases a with
  | act a =>
    obtain ⟨-, t, -, rfl⟩ := Faulty.act_eq_some hs
    exact ⟨List.Subset.refl _, fun n => id⟩
  | raise n k =>
    obtain ⟨msg, timedOut, -, rfl⟩ := Faulty.raise_eq_some hs
    refine ⟨List.subset_cons_self _ _, fun m hm => ?_⟩
    dsimp only
    split
    · by_cases hmn : m = n
      · rw [hmn, Function.update_self]
      · rwa [Function.update_of_ne hmn]
    · exact hm

theorem Faulty.run_mono {as : List (FaultyAction Node Payload)}
    (hr : (faultyQueue cfg).run f as = some g) :
    f.lost ⊆ g.lost ∧ ∀ n, f.stopped n = true → g.stopped n = true := by
  induction as generalizing f with
  | nil =>
    cases hr
    exact ⟨List.Subset.refl _, fun n => id⟩
  | cons a as ih =>
    obtain ⟨u, hu, hr⟩ := Option.bind_eq_some_iff.mp hr
    obtain ⟨hlost, hstopped⟩ := Faulty.step_mono hu
    obtain ⟨hlost', hstopped'⟩ := ih hr
    exact ⟨List.Subset.trans hlost hlost', fun n hn => hstopped' n (hstopped n hn)⟩

end Step

section Raise
variable {f g u : Faulty Node Payload} {n : Node} {k : Nat} {as : List (FaultyAction Node Payload)}
  (h : (faultyQueue cfg).Reachable f) (hs : (faultyQueue cfg).step f (.raise n k) = some g)
  (hr : (faultyQueue cfg).run g as = some u)
include h hs hr

/-- A message whose push raised is lost for good: no client can acknowledge it or nack it, and it
cannot time out. -/
theorem lost_of_raise {msg : Message Node Payload} {timedOut : Option (List String)}
    (hk : (f.service.nodes n).calls[k]? = some (.requeue msg timedOut)) :
    u.service.Lost msg.messageId := by
  obtain ⟨msg', timedOut', hk', hg⟩ := Faulty.raise_eq_some hs
  obtain ⟨rfl, -⟩ := Call.requeue.inj (Option.some.inj (hk.symm.trans hk'))
  have hlost : msg ∈ g.lost := by
    rw [hg]
    exact List.mem_cons_self
  have hreach := (h.step trivial hs).run (System.along_trivial _ _) hr
  exact (accounted_reach hreach).lost ((Faulty.run_mono hr).1 hlost)

omit h in
/-- The timeout checker whose push raised never wakes up again. -/
theorem checker_ends {msg : Message Node Payload} {timedOut : List String}
    (hk : (f.service.nodes n).calls[k]? = some (.requeue msg (some timedOut))) (now : Rat) :
    (faultyQueue cfg).step u (.act (.checkTimeouts n now)) = none := by
  obtain ⟨msg', timedOut', hk', hg⟩ := Faulty.raise_eq_some hs
  obtain ⟨-, rfl⟩ := Call.requeue.inj (Option.some.inj (hk.symm.trans hk'))
  have hstopped : g.stopped n = true := by
    rw [hg]
    exact Function.update_self ..
  exact if_pos ((Faulty.run_mono hr).2 n hstopped)

/-- If the push of `negative_acknowledge` raises, its message is not in flight as it was before, nor
is it ever again. -/
theorem not_retains_of_raise {m : Message Node Payload} {timedOut : Option (List String)}
    (hk : (f.service.nodes n).calls[k]? = some (.requeue m.nacked timedOut)) :
    ¬ u.Retains n m ∧ u.service.Lost m.messageId := by
  have hlost : u.service.Lost m.nacked.messageId := lost_of_raise h hs hr hk
  refine ⟨fun hm => ?_, hlost⟩
  exact hlost (.node n .inFlight) m
    (List.mem_append_left _ (List.mem_map.mpr ⟨_, Dict.get?_eq_some.mp hm, rfl⟩)) rfl

end Raise

deriving instance DecidableEq for Call

def orderConsumed : List (FaultyAction Nat Nat) :=
  [.act (.produce 0 "orders" 7 none [] "m" 0), .act (.resume 0 0), .act (.resume 0 0),
   .act (.consume 0 "orders" "group" "a" (some [0]) 1), .act (.resume 0 0)]

def order : Message Nat Nat := plain.message 0 "orders" 7 none [] "m" 0

theorem not_retains_order :
    ∃ f g u, (faultyQueue plain).run (faultyQueue plain).init
        (orderConsumed ++ [.act (.negativeAcknowledge 0 "m")]) = some f ∧
      (faultyQueue plain).step f (.raise 0 0) = some g ∧
      (faultyQueue plain).run g [.act (.acknowledge 0 "m")] = some u ∧
      ¬ u.Retains 0 order ∧ u.service.Lost "m" := by
  have hrun : ((faultyQueue plain).run (faultyQueue plain).init
      (orderConsumed ++ [.act (.negativeAcknowledge 0 "m")])).any (fun f =>
        (f.service.nodes 0).calls[0]? = some (.requeue order.nacked none) ∧
        ((faultyQueue plain).step f (.raise 0 0)).any (fun g =>
          ((faultyQueue plain).run g [.act (.acknowledge 0 "m")]).isSome) = true) = true := by
    decide +kernel
  obtain ⟨f, hf, hpushed⟩ := (Option.any_eq_true ..).mp hrun
  obtain ⟨hk, hrest⟩ := of_decide_eq_true hpushed
  obtain ⟨g, hg, hrest⟩ := (Option.any_eq_true ..).mp hrest
  obtain ⟨u, hu⟩ := Option.isSome_iff_exists.mp hrest
  exact ⟨f, g, u, hf, hg, hu, not_retains_of_raise (System.reachable_run hf) hg hu hk⟩

theorem not_atomic_order :
    ∃ f g, (faultyQueue plain).run (faultyQueue plain).init orderConsumed = some f ∧
      f.Retains 0 order ∧
      (faultyQueue plain).run f [.act (.negativeAcknowledge 0 "m"), .raise 0 0] = some g ∧
      ¬ g.Retains 0 order := by
  have hrun : ((faultyQueue plain).run (faultyQueue plain).init orderConsumed).any (fun f =>
      f.Retains 0 order ∧
        ((faultyQueue plain).run f [.act (.negativeAcknowledge 0 "m"), .raise 0 0]).any (fun g =>
          ¬ g.Retains 0 order) = true) = true := by
    decide +kernel
  obtain ⟨f, hf, hretains⟩ := (Option.any_eq_true ..).mp hrun
  obtain ⟨hm, hrest⟩ := of_decide_eq_true hretains
  obtain ⟨g, hg, hlost⟩ := (Option.any_eq_true ..).mp hrest
  exact ⟨f, g, hf, hm, hg, of_decide_eq_true hlost⟩

end DistSync.Queue
