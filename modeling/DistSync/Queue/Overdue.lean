import Mathlib.Algebra.Order.Ring.Rat
import Mathlib.Tactic.Linarith
import DistSync.Queue.Redelivery

/-! When deliveries time out. The checker measures from the time a message was produced and works
off a list that it made before its pushes. So it nacks only what was in flight for too long as long
as no message that waited in a list is in flight when it reads the clock, and none comes back to its
node during a pass. -/
namespace DistSync.Queue
variable {Node Payload : Type} [DecidableEq Node] {cfg : Config Node Payload}

/-- The clock, when each message last came in flight on a node, and when the timeout checker of
each node last read the clock. -/
structure Clock (Node : Type) where
  time : Rat := 0
  delivered : Node → String → Rat := fun _ _ => 0
  reading : Node → Rat := fun _ => 0

def Action.readings : Action Node Payload → List Rat
  | .produce _ _ _ _ _ _ timestamp => [timestamp]
  | .produceBatch _ _ items => items.map BatchItem.timestamp
  | .checkTimeouts _ now => [now]
  | _ => []

def Service.delivers (s : Service Node Payload) : Action Node Payload → Option (Node × String)
  | .resume n k =>
    match (s.nodes n).calls[k]? with
    | some (.lpop topic p _ _ _) =>
      (s.redis.queue (topic, p)).head?.map fun raw => (n, raw.messageId)
    | _ => none
  | _ => none

def Service.timesOut (s : Service Node Payload) : Action Node Payload → Option (Node × String)
  | .checkTimeouts n now =>
    ((s.nodes n).firstInFlight ((s.nodes n).timedOut now)).map fun messageId => (n, messageId)
  | .resume n k =>
    match (s.nodes n).calls[k]? with
    | some (.requeue _ (some timedOut)) =>
      ((s.nodes n).firstInFlight timedOut).map fun messageId => (n, messageId)
    | _ => none
  | _ => none

def Clock.next (s : Service Node Payload) (g : Clock Node) (b : Action Node Payload × Rat) :
    Option (Clock Node) :=
  if g.time ≤ b.2 ∧ ∀ r ∈ b.1.readings, g.time ≤ r ∧ r ≤ b.2 then some
    { time := b.2
      delivered := match s.delivers b.1 with
        | some (n, messageId) =>
          Function.update g.delivered n (Function.update (g.delivered n) messageId b.2)
        | none => g.delivered
      reading := match b.1 with
        | .checkTimeouts n now => Function.update g.reading n now
        | _ => g.reading }
  else none

/-- The queue, with the time at which each step ends. -/
def timedQueue (cfg : Config Node Payload) :
    System (Service Node Payload × Clock Node) (Action Node Payload × Rat) :=
  (queue cfg).watched Prod.fst {} Clock.next

/-- The delivery was in flight for more than `_ack_timeout` seconds when the checker of its node
read the clock. -/
def Clock.Late (g : Clock Node) (n : Node) (messageId : String) : Prop :=
  g.reading n - g.delivered n messageId > 30

/-- What a checker nacks in the step is late. -/
def Overdue (p : Service Node Payload × Clock Node) (b : Action Node Payload × Rat)
    (q : Service Node Payload × Clock Node) : Prop :=
  ∀ d ∈ p.1.timesOut b.1, q.2.Late d.1 d.2

def Call.remaining : Call Node Payload → List String
  | .requeue _ (some timedOut) => timedOut
  | _ => []

def QueueNode.remaining (x : QueueNode Node Payload) : List String :=
  x.calls.flatMap Call.remaining

/-- As a checker reads the clock, whatever is in flight on its node and was produced more than
`_ack_timeout` seconds ago came in flight that long ago; and no `consume` takes a message that the
checker of its node still has to see to. -/
def Timely (p : Service Node Payload × Clock Node) (b : Action Node Payload × Rat) : Prop :=
  match b.1 with
  | .checkTimeouts n now => ∀ e ∈ (p.1.nodes n).inFlight.entries,
      now - e.2.timestamp > 30 → now - p.2.delivered n e.2.messageId > 30
  | a => ∀ d ∈ p.1.delivers a, d.2 ∉ (p.1.nodes d.1).remaining

/-- The steps can be taken, and in one of them a checker nacks what is not overdue. -/
def Premature (cfg : Config Node Payload) (p : Service Node Payload × Clock Node)
    (bs : List (Action Node Payload × Rat)) : Prop :=
  ((timedQueue cfg).run p bs).isSome ∧ ¬ (timedQueue cfg).Along Overdue p bs

instance (g : Clock Node) (n : Node) (messageId : String) : Decidable (g.Late n messageId) :=
  inferInstanceAs (Decidable (_ > _))

instance (p : Service Node Payload × Clock Node) (b : Action Node Payload × Rat)
    (q : Service Node Payload × Clock Node) : Decidable (Overdue p b q) :=
  inferInstanceAs (Decidable (∀ d ∈ p.1.timesOut b.1, _))

instance (p : Service Node Payload × Clock Node) (b : Action Node Payload × Rat) :
    Decidable (Timely p b) :=
  match b with
  | (.checkTimeouts _ _, _) => inferInstanceAs (Decidable (∀ e ∈ _, _ → _))
  | (.resume n k, _) => inferInstanceAs (Decidable (∀ d ∈ p.1.delivers (.resume n k), _))
  | (.produce .., _) | (.produceBatch .., _) | (.consume .., _) | (.acknowledge .., _)
  | (.negativeAcknowledge .., _) => .isTrue nofun

def Pending (p : Service Node Payload × Clock Node) : Prop :=
  ∀ n, ∀ messageId ∈ (p.1.nodes n).remaining,
    ((p.1.nodes n).inFlight.get? messageId).isSome → p.2.Late n messageId

section Node
variable (x : QueueNode Node Payload)
omit [DecidableEq Node]

theorem remaining_suspend (c : Call Node Payload) :
    (x.suspend c).remaining = x.remaining ++ c.remaining := by
  simp only [QueueNode.remaining, QueueNode.suspend, List.flatMap_append, List.flatMap_singleton]

theorem remaining_suspend_of_nil {c : Call Node Payload} (hc : c.remaining = []) :
    (x.suspend c).remaining = x.remaining := by
  rw [remaining_suspend, hc, List.append_nil]

theorem remaining_wake (k : Nat) : (x.wake k).remaining ⊆ x.remaining := by
  intro messageId h
  obtain ⟨c, hc, hid⟩ := List.mem_flatMap.mp h
  exact List.mem_flatMap.mpr ⟨c, List.mem_of_mem_eraseIdx hc, hid⟩

theorem mem_remaining_wake {c : Call Node Payload} {k : Nat} (hk : x.calls[k]? = some c)
    (hc : c.remaining = []) {i : String} (hi : i ∈ x.remaining) : i ∈ (x.wake k).remaining := by
  obtain ⟨hlt, hget⟩ := List.getElem?_eq_some_iff.mp hk
  have hperm := List.getElem_cons_eraseIdx_perm hlt
  obtain ⟨c', hc', hi'⟩ := List.mem_flatMap.mp hi
  cases List.mem_cons.mp (hperm.symm.subset hc') with
  | inl hsame =>
    rw [hsame, hget, hc] at hi'
    cases hi'
  | inr hrest => exact List.mem_flatMap.mpr ⟨c', hrest, hi'⟩

theorem remaining_poll (topic : String) (batchSize : Nat) (messages : List (Message Node Payload))
    (partitions : List Int) :
    (x.poll topic batchSize messages partitions).1.remaining = x.remaining := by
  cases partitions with
  | nil => rfl
  | cons p rest =>
    simp only [QueueNode.poll]
    split
    · rfl
    · exact remaining_suspend_of_nil x rfl

theorem inFlight_poll (topic : String) (batchSize : Nat) (messages : List (Message Node Payload))
    (partitions : List Int) :
    (x.poll topic batchSize messages partitions).1.inFlight = x.inFlight := by
  cases partitions with
  | nil => rfl
  | cons p rest =>
    simp only [QueueNode.poll]
    split
    · rfl
    · rfl

theorem isSome_untrack {messageId i : String}
    (h : ((x.untrack messageId).inFlight.get? i).isSome) : (x.inFlight.get? i).isSome := by
  rw [QueueNode.untrack, Dict.get?_erase] at h
  split at h
  · cases h
  · exact h

theorem negativeAcknowledge_frame {messageId : String} {timedOut : Option (List String)}
    {y : QueueNode Node Payload} (hy : x.negativeAcknowledge messageId timedOut = some y) :
    y.remaining = x.remaining ++ timedOut.getD [] ∧
      ∀ i, (y.inFlight.get? i).isSome → (x.inFlight.get? i).isSome := by
  obtain ⟨msg, hm, rfl⟩ := negativeAcknowledge_eq_some hy
  refine ⟨?_, fun i => isSome_untrack x⟩
  rw [remaining_suspend]
  cases timedOut <;> rfl

theorem checkTimedOut_frame (timedOut : List String) :
    (∀ i ∈ (x.checkTimedOut timedOut).remaining, i ∈ x.remaining ∨ i ∈ timedOut) ∧
      ∀ i, ((x.checkTimedOut timedOut).inFlight.get? i).isSome → (x.inFlight.get? i).isSome := by
  cases checkTimedOut_cases x timedOut with
  | inl hidle =>
    rw [hidle.2]
    exact ⟨fun i hi => .inl hi, fun i hi => hi⟩
  | inr hnext =>
    obtain ⟨before, messageId, rest, rfl, -, -, hy⟩ := hnext
    obtain ⟨hremaining, hflight⟩ := negativeAcknowledge_frame x hy
    refine ⟨fun i hi => ?_, hflight⟩
    rw [hremaining] at hi
    refine (List.mem_append.mp hi).imp_right fun hrest => ?_
    exact List.mem_append_right _ (List.mem_cons_of_mem _ hrest)

theorem firstInFlight_eq_some {timedOut : List String} {messageId : String}
    (h : x.firstInFlight timedOut = some messageId) :
    messageId ∈ timedOut ∧ (x.inFlight.get? messageId).isSome := by
  unfold QueueNode.firstInFlight at h
  exact ⟨List.mem_of_find?_eq_some h, by simpa using List.find?_some h⟩

end Node

section Step
variable {s t : Service Node Payload} {a : Action Node Payload}

theorem forall_move {P : Node → QueueNode Node Payload → Prop} {n : Node}
    {y : QueueNode Node Payload} {r : Redis Node Payload} {evs : List (Event Node Payload)}
    (hself : P n y) (hother : ∀ m, m ≠ n → P m (s.nodes m)) (m : Node) :
    P m ((s.move n y r evs).nodes m) := by
  by_cases hm : m = n
  · subst hm
    rwa [move_self]
  · rw [move_of_ne _ _ _ _ hm]
    exact hother m hm

structure Adds (s : Service Node Payload) (a : Action Node Payload) (n : Node)
    (y : QueueNode Node Payload) : Prop where
  remaining : ∀ i ∈ y.remaining, i ∈ (s.nodes n).remaining ∨
    ∃ now, a = .checkTimeouts n now ∧ i ∈ (s.nodes n).timedOut now
  inFlight : ∀ i, (y.inFlight.get? i).isSome →
    ((s.nodes n).inFlight.get? i).isSome ∨ s.delivers a = some (n, i)

omit [DecidableEq Node] in
theorem adds_self (s : Service Node Payload) (a : Action Node Payload) (n : Node) :
    Adds s a n (s.nodes n) :=
  ⟨fun _ => .inl, fun _ => .inl⟩

theorem adds_move {n : Node} {y : QueueNode Node Payload} {r : Redis Node Payload}
    {evs : List (Event Node Payload)} (h : Adds s a n y) (m : Node) :
    Adds s a m ((s.move n y r evs).nodes m) :=
  forall_move (P := Adds s a) h (fun m _ => adds_self s a m) m

omit [DecidableEq Node] in
theorem adds_requeue {n : Node} {k : Nat} {msg : Message Node Payload}
    {timedOut : Option (List String)}
    (hk : (s.nodes n).calls[k]? = some (.requeue msg timedOut)) :
    Adds s (.resume n k) n (((s.nodes n).wake k).checkTimedOut (timedOut.getD [])) := by
  obtain ⟨hremaining, hflight⟩ :=
    checkTimedOut_frame ((s.nodes n).wake k) (timedOut.getD [])
  refine ⟨fun i hi => .inl ?_, fun i hi => .inl (hflight i hi)⟩
  cases hremaining i hi with
  | inl hold => exact remaining_wake _ k hold
  | inr hnew =>
    refine List.mem_flatMap.mpr ⟨_, List.mem_of_getElem? hk, ?_⟩
    cases timedOut with
    | none => cases hnew
    | some timedOut => exact hnew

theorem adds_step (hs : (queue cfg).step s a = some t) (m : Node) : Adds s a m (t.nodes m) := by
  cases step_cases hs with
  | produce n topic payload key headers messageId timestamp hfresh =>
    refine adds_move ?_ m
    refine ⟨fun i hi => .inl ?_, fun i hi => .inl ?_⟩
    · unfold QueueNode.produce at hi
      split at hi
      · exact hi
      · rwa [remaining_suspend_of_nil _ rfl] at hi
    · unfold QueueNode.produce at hi
      split at hi
      · exact hi
      · exact hi
  | produceBatch n topic items hnodup hfresh =>
    refine adds_move ?_ m
    refine ⟨fun i hi => .inl ?_, fun i hi => .inl hi⟩
    rwa [QueueNode.produceBatch, remaining_suspend_of_nil _ rfl] at hi
  | consume n topic groupId consumerId partitions batchSize =>
    refine adds_move ?_ m
    refine ⟨fun i hi => .inl ?_, fun i hi => .inl ?_⟩
    · rwa [QueueNode.consume, remaining_poll] at hi
    · rwa [QueueNode.consume, inFlight_poll] at hi
  | acknowledge n messageId msg hm =>
    refine adds_move ?_ m
    refine ⟨fun i hi => .inl ?_, fun i hi => .inl (isSome_untrack _ hi)⟩
    rwa [remaining_suspend_of_nil _ rfl] at hi
  | acknowledgeUnknown n messageId => exact adds_self s _ m
  | negativeAcknowledge n messageId y hy =>
    obtain ⟨hremaining, hflight⟩ := negativeAcknowledge_frame _ hy
    refine adds_move ?_ m
    refine ⟨fun i hi => .inl ?_, fun i hi => .inl (hflight i hi)⟩
    rwa [hremaining, Option.getD_none, List.append_nil] at hi
  | negativeAcknowledgeUnknown n messageId => exact adds_self s _ m
  | checkTimeouts n now =>
    obtain ⟨hremaining, hflight⟩ := checkTimedOut_frame (s.nodes n) ((s.nodes n).timedOut now)
    refine adds_move ?_ m
    refine ⟨fun i hi => ?_, fun i hi => .inl (hflight i hi)⟩
    exact (hremaining i hi).imp_right fun hnew => ⟨now, rfl, hnew⟩
  | rpush n k msg hk =>
    refine adds_move ?_ m
    refine ⟨fun i hi => .inl (remaining_wake _ k ?_), fun i hi => .inl hi⟩
    rwa [remaining_suspend_of_nil _ rfl] at hi
  | incr n k msg hk =>
    refine adds_move ?_ m
    exact ⟨fun i hi => .inl (remaining_wake _ k hi), fun i hi => .inl hi⟩
  | execute n k pipe hk =>
    refine adds_move ?_ m
    exact ⟨fun i hi => .inl (remaining_wake _ k hi), fun i hi => .inl hi⟩
  | lpopEmpty n k topic p rest batchSize messages hk =>
    refine adds_move ?_ m
    refine ⟨fun i hi => .inl (remaining_wake _ k ?_), fun i hi => .inl ?_⟩
    · rwa [remaining_poll] at hi
    · rwa [inFlight_poll] at hi
  | lpop n k topic p rest batchSize messages raw hk hq r hr =>
    subst hr
    refine adds_move ?_ m
    refine ⟨fun i hi => .inl (remaining_wake _ k ?_), fun i hi => ?_⟩
    · rwa [remaining_poll] at hi
    · rw [inFlight_poll, QueueNode.track, Dict.get?_set] at hi
      split at hi
      · rename_i hid
        refine .inr ?_
        simp only [Service.delivers, hk]
        rw [hq, ← hid]
        rfl
      · exact .inl hi
  | set n k msg hk =>
    refine adds_move ?_ m
    exact ⟨fun i hi => .inl (remaining_wake _ k hi), fun i hi => .inl hi⟩
  | bury n k msg timedOut hk hmax => exact adds_move (adds_requeue hk) m
  | requeue n k msg timedOut hk hmax => exact adds_move (adds_requeue hk) m

theorem nodes_checkTimeouts {n : Node} {now : Rat}
    (hs : (queue cfg).step s (.checkTimeouts n now) = some t) :
    t.nodes n = (s.nodes n).checkTimedOut ((s.nodes n).timedOut now) := by
  simp only [queue, Service.step, Service.checkTimeouts] at hs
  split at hs
  · cases hs
  · rw [← Option.some.inj hs]
    exact move_self ..

theorem nodes_lpop {n : Node} {k : Nat} (hs : (queue cfg).step s (.resume n k) = some t)
    {d : Node × String} (hd : d ∈ s.delivers (.resume n k)) :
    ((t.nodes d.1).inFlight.get? d.2).isSome ∧
      (d.2 ∈ (s.nodes d.1).remaining → d.2 ∈ (t.nodes d.1).remaining) := by
  simp only [Service.delivers] at hd
  split at hd
  · rename_i topic p rest batchSize messages hk
    obtain ⟨raw, hraw, rfl⟩ := Option.map_eq_some_iff.mp hd
    have hq : s.redis.queue (topic, p) = raw :: (s.redis.queue (topic, p)).tail :=
      List.eq_cons_of_mem_head? hraw
    simp only [queue, Service.step, Service.resume, hk, Option.map_some] at hs
    rw [hq] at hs
    rw [← Option.some.inj hs]
    dsimp only
    rw [move_self, inFlight_poll, remaining_poll]
    refine ⟨?_, mem_remaining_wake _ hk rfl⟩
    rw [QueueNode.track, Dict.get?_set_self]
    rfl
  · cases hd

theorem remaining_of_checkTimeouts {n : Node} {now : Rat}
    (hs : (queue cfg).step s (.checkTimeouts n now) = some t) : (s.nodes n).remaining = [] := by
  simp only [queue, Service.step, Service.checkTimeouts] at hs
  split at hs
  · cases hs
  · rename_i hidle
    refine List.flatMap_eq_nil_iff.mpr fun c hc => ?_
    have hnot : ¬ c.checking = true := fun hch => hidle (List.any_eq_true.mpr ⟨c, hc, hch⟩)
    cases c with
    | requeue msg timedOut =>
      cases timedOut with
      | none => rfl
      | some timedOut => exact absurd rfl hnot
    | _ => rfl

end Step

section Clock
variable {s : Service Node Payload} {g g' : Clock Node} {b : Action Node Payload × Rat}
  (h : Clock.next s g b = some g')
include h

theorem Clock.next_time : g.time ≤ b.2 ∧ (∀ r ∈ b.1.readings, r ≤ b.2) ∧ g'.time = b.2 := by
  unfold Clock.next at h
  split at h
  · rename_i hclock
    rw [← Option.some.inj h]
    exact ⟨hclock.1, fun r hr => (hclock.2 r hr).2, rfl⟩
  · cases h

theorem Clock.next_delivered (m : Node) (i : String) :
    g'.delivered m i = if s.delivers b.1 = some (m, i) then b.2 else g.delivered m i := by
  unfold Clock.next at h
  split at h
  · rw [← Option.some.inj h]
    dsimp only
    cases s.delivers b.1 with
    | none => rw [if_neg nofun]
    | some d =>
      obtain ⟨n, messageId⟩ := d
      dsimp only
      by_cases hm : m = n
      · subst hm
        rw [Function.update_self]
        by_cases hi : i = messageId
        · subst hi
          rw [Function.update_self, if_pos rfl]
        · rw [Function.update_of_ne hi,
            if_neg fun he => hi (Prod.mk.inj (Option.some.inj he)).2.symm]
      · rw [Function.update_of_ne hm,
          if_neg fun he => hm (Prod.mk.inj (Option.some.inj he)).1.symm]
  · cases h

theorem Clock.next_reading (m : Node) :
    (∃ now, b.1 = .checkTimeouts m now ∧ g'.reading m = now) ∨
      (∀ now, b.1 ≠ .checkTimeouts m now) ∧ g'.reading m = g.reading m := by
  unfold Clock.next at h
  split at h
  · rw [← Option.some.inj h]
    obtain ⟨a, time⟩ := b
    cases a with
    | checkTimeouts n now =>
      by_cases hm : m = n
      · subst hm
        exact .inl ⟨now, rfl, Function.update_self ..⟩
      · refine .inr ⟨fun _ he => ?_, Function.update_of_ne hm ..⟩
        exact hm (Action.checkTimeouts.inj he).1.symm
    | _ => exact .inr ⟨nofun, rfl⟩
  · cases h

end Clock

section Run
variable {p q : Service Node Payload × Clock Node} {b : Action Node Payload × Rat}

theorem timedQueue_step :
    (timedQueue cfg).step p b = some q ↔
      (queue cfg).step p.1 b.1 = some q.1 ∧ Clock.next p.1 p.2 b = some q.2 :=
  System.watched_step

omit [DecidableEq Node] in
theorem Timely.delivers (h : Timely p b) :
    ∀ d ∈ p.1.delivers b.1, d.2 ∉ (p.1.nodes d.1).remaining := by
  obtain ⟨a, time⟩ := b
  cases a with
  | checkTimeouts n now => exact nofun
  | _ => exact h

theorem late_iff_of_reading {n : Node} {now time : Rat}
    (hq : Clock.next p.1 p.2 (.checkTimeouts n now, time) = some q.2) (i : String) :
    q.2.Late n i ↔ now - p.2.delivered n i > 30 := by
  have hdelivered : q.2.delivered n i = p.2.delivered n i := by
    rw [Clock.next_delivered hq, if_neg nofun]
  have hreading : q.2.reading n = now := by
    cases Clock.next_reading hq n with
    | inl hread =>
      obtain ⟨now', hact, hr⟩ := hread
      rw [hr, ← (Action.checkTimeouts.inj hact).2]
    | inr hother => exact absurd rfl (hother.1 now)
  rw [Clock.Late, hdelivered, hreading]

theorem Timely.late {n : Node} {now time : Rat} (h : Timely p (.checkTimeouts n now, time))
    (hq : Clock.next p.1 p.2 (.checkTimeouts n now, time) = some q.2) {i : String}
    (hi : i ∈ (p.1.nodes n).timedOut now) : q.2.Late n i := by
  obtain ⟨e, he, rfl⟩ := List.mem_map.mp hi
  obtain ⟨hmem, hage⟩ := List.mem_filter.mp he
  exact (late_iff_of_reading hq _).mpr (h e hmem (of_decide_eq_true hage))

/-- What was late stays late, as long as it is not delivered again and its checker does not read
the clock. -/
theorem late_iff_of_next {m : Node} {i : String} (hq : Clock.next p.1 p.2 b = some q.2)
    (hread : ∀ now, b.1 ≠ .checkTimeouts m now) (hdeliver : p.1.delivers b.1 ≠ some (m, i)) :
    q.2.Late m i ↔ p.2.Late m i := by
  have hreading : q.2.reading m = p.2.reading m := by
    cases Clock.next_reading hq m with
    | inl hnow =>
      obtain ⟨now, hact, -⟩ := hnow
      exact absurd hact (hread now)
    | inr hother => exact hother.2
  rw [Clock.Late, Clock.Late, hreading, Clock.next_delivered hq, if_neg hdeliver]

theorem Pending.step (h : Pending p) (hs : (timedQueue cfg).step p b = some q) (ht : Timely p b) :
    Pending q := by
  obtain ⟨hstep, hclock⟩ := timedQueue_step.mp hs
  intro m i hi hflight
  have hadds := adds_step hstep m
  have hno : ∀ now, i ∈ (p.1.nodes m).remaining → b.1 ≠ .checkTimeouts m now := by
    intro now hmem hact
    rw [hact] at hstep
    rw [remaining_of_checkTimeouts hstep] at hmem
    cases hmem
  cases hadds.remaining i hi with
  | inr hnew =>
    obtain ⟨now, hact, hout⟩ := hnew
    obtain ⟨a, time⟩ := b
    subst hact
    exact ht.late hclock hout
  | inl hold =>
    have hdeliver : p.1.delivers b.1 ≠ some (m, i) := fun hd => ht.delivers _ hd hold
    refine (late_iff_of_next hclock (fun now => hno now hold) hdeliver).mpr (h m i hold ?_)
    exact (hadds.inFlight i hflight).resolve_right hdeliver

theorem Pending.overdue (h : Pending p) (hs : (timedQueue cfg).step p b = some q)
    (ht : Timely p b) : Overdue p b q := by
  obtain ⟨-, hclock⟩ := timedQueue_step.mp hs
  obtain ⟨a, time⟩ := b
  intro d hd
  cases a with
  | checkTimeouts n now =>
    obtain ⟨i, hi, rfl⟩ := Option.map_eq_some_iff.mp hd
    exact ht.late hclock (firstInFlight_eq_some _ hi).1
  | resume n k =>
    simp only [Service.timesOut] at hd
    split at hd
    · rename_i msg timedOut hk
      obtain ⟨i, hi, rfl⟩ := Option.map_eq_some_iff.mp hd
      obtain ⟨hmem, hflight⟩ := firstInFlight_eq_some _ hi
      have hremaining : i ∈ (p.1.nodes n).remaining :=
        List.mem_flatMap.mpr ⟨_, List.mem_of_getElem? hk, hmem⟩
      have hdeliver : p.1.delivers (.resume n k) ≠ some (n, i) := by
        simp only [Service.delivers, hk]
        exact nofun
      exact (late_iff_of_next hclock nofun hdeliver).mpr (h n i hremaining hflight)
    · cases hd
  | _ => cases hd

theorem Pending.along (hp : Pending p) {as : List (Action Node Payload × Rat)}
    (h : (timedQueue cfg).Along (fun p b _ => Timely p b) p as) :
    (timedQueue cfg).Along Overdue p as := by
  induction as generalizing p with
  | nil => trivial
  | cons b as ih =>
    intro q hq
    obtain ⟨ht, hrest⟩ := h q hq
    exact ⟨hp.overdue hq ht, ih (hp.step hq ht) hrest⟩

/-- In a run that meets the conditions, the checkers nack nothing that is not overdue. -/
theorem overdue_along {as : List (Action Node Payload × Rat)}
    (h : (timedQueue cfg).Along (fun p b _ => Timely p b) (timedQueue cfg).init as) :
    (timedQueue cfg).Along Overdue (timedQueue cfg).init as :=
  Pending.along (fun _ _ hi => absurd hi List.not_mem_nil) h

/-- A message comes in flight after a second and times out after 40. -/
def forgotten : List (Action Nat Nat × Rat) :=
  [(.produce 0 "orders" 7 none [] "m" 0, 0), (.resume 0 0, 0), (.resume 0 0, 0),
   (.consume 0 "orders" "group" "a" (some [0]) 1, 1), (.resume 0 0, 1),
   (.checkTimeouts 0 40, 40), (.resume 0 0, 40)]

theorem overdue_along_forgotten :
    (∃ p, (timedQueue plain).run (timedQueue plain).init forgotten = some p ∧
      (p.1.redis.queue ("orders", 0)).map Message.retryCount = [1]) ∧
      (timedQueue plain).Along Overdue (timedQueue plain).init forgotten := by
  have hrun : ((timedQueue plain).run (timedQueue plain).init forgotten).any (fun p =>
      (p.1.redis.queue ("orders", 0)).map Message.retryCount = [1]) = true := by
    decide +kernel
  obtain ⟨p, hp, hretries⟩ := (Option.any_eq_true ..).mp hrun
  exact ⟨⟨p, hp, of_decide_eq_true hretries⟩, overdue_along (by decide +kernel)⟩

/-- A message waits in its list for 31 seconds; a second after it comes in flight the checker nacks
it. -/
def waitedLong : List (Action Nat Nat × Rat) :=
  [(.produce 0 "orders" 7 none [] "m" 0, 0), (.resume 0 0, 0), (.resume 0 0, 0),
   (.consume 0 "orders" "group" "a" (some [0]) 1, 31), (.resume 0 0, 31),
   (.checkTimeouts 0 32, 32)]

theorem not_overdue_waitedLong :
    ((timedQueue plain).run (timedQueue plain).init waitedLong).isSome ∧
      ¬ (timedQueue plain).Along Overdue (timedQueue plain).init waitedLong := by
  constructor
  · decide +kernel
  · decide +kernel

theorem reading_le_time (h : (timedQueue cfg).Reachable p) (n : Node) :
    p.2.reading n ≤ p.2.time := by
  refine h.invariant (I := fun p => p.2.reading n ≤ p.2.time) le_rfl fun p b q _ hp _ hs => ?_
  obtain ⟨-, hclock⟩ := timedQueue_step.mp hs
  obtain ⟨hle, hreadings, htime⟩ := Clock.next_time hclock
  rw [htime]
  cases Clock.next_reading hclock n with
  | inl hread =>
    obtain ⟨now, hact, hr⟩ := hread
    rw [hr]
    refine hreadings now ?_
    rw [hact]
    exact List.mem_cons_self
  | inr hother =>
    rw [hother.2]
    exact hp.trans hle

end Run

section Unmet
variable {p q : Service Node Payload × Clock Node} {b : Action Node Payload × Rat}

variable (cfg) in
theorem step_requeue {n : Node} {k : Nat} {msg : Message Node Payload} {timedOut : List String}
    (hk : (p.1.nodes n).calls[k]? = some (.requeue msg (some timedOut))) :
    ∃ t, (timedQueue cfg).step p (.resume n k, p.2.time) = some (t, p.2) ∧
      t.nodes n = ((p.1.nodes n).wake k).checkTimedOut timedOut ∧
      Timely p (.resume n k, p.2.time) := by
  have hdeliver : p.1.delivers (.resume n k) = none := by
    simp only [Service.delivers, hk]
  have hclock : Clock.next p.1 p.2 (.resume n k, p.2.time) = some p.2 := by
    rw [Clock.next, if_pos ⟨le_rfl, nofun⟩]
    dsimp only
    rw [hdeliver]
  have hstep : (queue cfg).step p.1 (.resume n k) = some (p.1.move n
      (((p.1.nodes n).wake k).checkTimedOut timedOut)
      (if msg.retryCount ≥ cfg.maxRetries then p.1.redis.bury msg else p.1.redis.lpush msg)
      []) := by
    simp only [queue, Service.step, Service.resume, hk, Option.map_some, Option.getD_some]
  refine ⟨_, timedQueue_step.mpr ⟨hstep, hclock⟩, move_self .., ?_⟩
  intro d hd
  rw [hdeliver] at hd
  cases hd

omit [DecidableEq Node] in
theorem checkTimedOut_or_keeps (x : QueueNode Node Payload) {timedOut : List String} {i : String}
    (hi : i ∈ timedOut) (hflight : (x.inFlight.get? i).isSome) :
    x.firstInFlight timedOut = some i ∨
      ∃ (k : Nat) (msg : Message Node Payload) (rest : List String),
        rest.length < timedOut.length ∧ i ∈ rest ∧
          (x.checkTimedOut timedOut).calls[k]? = some (.requeue msg (some rest)) ∧
            ((x.checkTimedOut timedOut).inFlight.get? i).isSome := by
  cases checkTimedOut_cases x timedOut with
  | inl hidle => exact absurd hflight (List.find?_eq_none.mp hidle.1 i hi)
  | inr hnext =>
    obtain ⟨before, i', rest, rfl, hbefore, hfirst, hy⟩ := hnext
    by_cases hsame : i = i'
    · rw [hsame]
      exact .inl hfirst
    · have hrest : i ∈ rest := by
        cases List.mem_append.mp hi with
        | inl hmem =>
          rw [hbefore i hmem] at hflight
          cases hflight
        | inr hmem => exact (List.mem_cons.mp hmem).resolve_left hsame
      obtain ⟨msg, hm, hy⟩ := negativeAcknowledge_eq_some hy
      refine .inr ⟨(x.untrack i').calls.length, { msg with retryCount := msg.retryCount + 1 }, rest,
        ?_, hrest, ?_, ?_⟩
      · rw [List.length_append, List.length_cons]
        omega
      · rw [hy, QueueNode.suspend]
        exact List.getElem?_concat_length
      · rw [hy, QueueNode.suspend, QueueNode.untrack, Dict.get?_erase, if_neg hsame]
        exact hflight

theorem Premature.cons {bs : List (Action Node Payload × Rat)}
    (hs : (timedQueue cfg).step p b = some q) (h : Premature cfg q bs) :
    Premature cfg p (b :: bs) := by
  refine ⟨?_, fun hall => h.2 (hall q hs).2⟩
  rw [System.run, hs]
  exact h.1

theorem Premature.single (hs : (timedQueue cfg).step p b = some q) (h : ¬ Overdue p b q) :
    Premature cfg p [b] := by
  refine ⟨?_, fun hall => h (hall q hs).1⟩
  rw [System.run, hs]
  rfl

theorem premature_of_remaining {timedOut : List String} {n : Node} {i : String}
    (hi : i ∈ timedOut) {k : Nat} {msg : Message Node Payload}
    (hk : (p.1.nodes n).calls[k]? = some (.requeue msg (some timedOut)))
    (hflight : ((p.1.nodes n).inFlight.get? i).isSome) (hlate : ¬ p.2.Late n i) :
    ∃ bs, (timedQueue cfg).Along (fun p b _ => Timely p b) p bs ∧ Premature cfg p bs := by
  induction hlen : timedOut.length using Nat.strong_induction_on generalizing timedOut p k msg with
  | _ len ih =>
    obtain ⟨t, hs, ht, htimely⟩ := step_requeue cfg hk
    cases checkTimedOut_or_keeps ((p.1.nodes n).wake k) hi hflight with
    | inl hfirst =>
      refine ⟨[(.resume n k, p.2.time)], fun u _ => ⟨htimely, trivial⟩,
        .single hs fun hover => hlate (hover (n, i) ?_)⟩
      simp only [Service.timesOut, hk]
      exact congrArg (Option.map _) hfirst
    | inr hkeeps =>
      obtain ⟨k', msg', rest, hshort, hrest, hk', hflight'⟩ := hkeeps
      rw [← ht] at hk' hflight'
      obtain ⟨bs, hbs, hpremature⟩ :=
        ih rest.length (hlen ▸ hshort) hrest (p := (t, p.2)) hk' hflight' hlate rfl
      refine ⟨(.resume n k, p.2.time) :: bs, fun u hu => ?_, .cons hs hpremature⟩
      cases hs.symm.trans hu
      exact ⟨htimely, hbs⟩

omit [DecidableEq Node] in
theorem exists_call_of_remaining {x : QueueNode Node Payload} {i : String} (h : i ∈ x.remaining) :
    ∃ (k : Nat) (msg : Message Node Payload) (timedOut : List String),
      x.calls[k]? = some (.requeue msg (some timedOut)) ∧ i ∈ timedOut := by
  obtain ⟨c, hc, hi⟩ := List.mem_flatMap.mp h
  obtain ⟨k, hk⟩ := List.mem_iff_getElem?.mp hc
  cases c with
  | requeue msg timedOut =>
    cases timedOut with
    | none => cases hi
    | some timedOut => exact ⟨k, msg, timedOut, hk, hi⟩
  | _ => cases hi

/-- A checker reads the clock while something that was produced long ago has just come in
flight. -/
theorem premature_of_reading {place : String → Option (Spot Node)} (hkept : Kept p.1 place)
    {n : Node} {now time : Rat}
    (hs : (timedQueue cfg).step p (.checkTimeouts n now, time) = some q)
    (ht : ¬ Timely p (.checkTimeouts n now, time)) :
    ∃ bs, (timedQueue cfg).Along (fun p b _ => Timely p b) q bs ∧
      Premature cfg p ((.checkTimeouts n now, time) :: bs) := by
  obtain ⟨hstep, hclock⟩ := timedQueue_step.mp hs
  simp only [Timely, not_forall] at ht
  obtain ⟨e, he, hage, hlate⟩ := ht
  have hflight : ((p.1.nodes n).inFlight.get? e.2.messageId).isSome := by
    rw [hkept.keyed n e he, Dict.get?_eq_some.mpr he]
    rfl
  have hout : e.2.messageId ∈ (p.1.nodes n).timedOut now :=
    List.mem_map_of_mem (List.mem_filter.mpr ⟨he, decide_eq_true hage⟩)
  have hnot : ¬ q.2.Late n e.2.messageId := fun h => hlate ((late_iff_of_reading hclock _).mp h)
  cases checkTimedOut_or_keeps (p.1.nodes n) hout hflight with
  | inl hfirst =>
    refine ⟨[], trivial, .single hs fun hover => hnot (hover (n, e.2.messageId) ?_)⟩
    exact congrArg (Option.map _) hfirst
  | inr hkeeps =>
    obtain ⟨k, msg, rest, -, hrest, hk, hflight'⟩ := hkeeps
    rw [← nodes_checkTimeouts hstep] at hk hflight'
    obtain ⟨bs, hbs, hpremature⟩ := premature_of_remaining hrest hk hflight' hnot
    exact ⟨bs, hbs, .cons hs hpremature⟩

/-- A message comes back to a node whose checker still has to see to it. -/
theorem premature_of_delivery (h : (timedQueue cfg).Reachable p) {n : Node} {k : Nat} {time : Rat}
    (hs : (timedQueue cfg).step p (.resume n k, time) = some q)
    (ht : ¬ Timely p (.resume n k, time)) :
    ∃ bs, (timedQueue cfg).Along (fun p b _ => Timely p b) q bs ∧
      Premature cfg p ((.resume n k, time) :: bs) := by
  obtain ⟨hstep, hclock⟩ := timedQueue_step.mp hs
  simp only [Timely, not_forall, not_not] at ht
  obtain ⟨d, hd, hremaining⟩ := ht
  obtain ⟨hflight, hkeeps⟩ := nodes_lpop hstep hd
  obtain ⟨k', msg, timedOut, hk, hi⟩ := exists_call_of_remaining (hkeeps hremaining)
  have hdelivered : q.2.delivered d.1 d.2 = time :=
    (Clock.next_delivered hclock d.1 d.2).trans (if_pos hd)
  have hreading : q.2.reading d.1 = p.2.reading d.1 := by
    cases Clock.next_reading hclock d.1 with
    | inl hread =>
      obtain ⟨now, hact, -⟩ := hread
      cases hact
    | inr hother => exact hother.2
  have hnot : ¬ q.2.Late d.1 d.2 := by
    -- it came in flight after the reading
    have hpast := reading_le_time h d.1
    have htime := (Clock.next_time hclock).1
    rw [Clock.Late, hdelivered, hreading]
    dsimp only at htime
    linarith
  obtain ⟨bs, hbs, hpremature⟩ := premature_of_remaining hi hk hflight hnot
  exact ⟨bs, hbs, .cons hs hpremature⟩

/-- The conditions are exact: after a step that does not meet them the checkers need only go on,
and they nack a message that is not overdue. -/
theorem premature_of_unmet (h : (timedQueue cfg).Reachable p)
    (hs : (timedQueue cfg).step p b = some q) (ht : ¬ Timely p b) :
    ∃ bs, (timedQueue cfg).Along (fun p b _ => Timely p b) q bs ∧ Premature cfg p (b :: bs) := by
  obtain ⟨place, hkept⟩ := kept_reach h.unwatched
  obtain ⟨a, time⟩ := b
  cases a with
  | checkTimeouts n now => exact premature_of_reading hkept hs ht
  | resume n k => exact premature_of_delivery h hs ht
  | _ => exact absurd (fun d hd => absurd hd (Option.not_mem_none d)) ht

end Unmet
end DistSync.Queue
