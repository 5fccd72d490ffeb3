import DistSync.Queue.Delivery

/-! How often a message comes back. Its `retry_count` goes with it from list to node to list, and
is always the number of its negative acknowledgements so far. -/
namespace DistSync.Queue
variable {Node Payload : Type} [DecidableEq Node] {cfg : Config Node Payload}
  {s t : Service Node Payload}

/-- A `negative_acknowledge` has taken its message out of flight, or its push took effect. -/
inductive Nack where
  | received (messageId : String)
  | processed (messageId : String)
deriving DecidableEq

/-- The first of the messages that is in flight, which the timeout checker nacks next. -/
def QueueNode.firstInFlight (x : QueueNode Node Payload) (timedOut : List String) :
    Option String :=
  timedOut.find? fun messageId => (x.inFlight.get? messageId).isSome

def QueueNode.receives (x : QueueNode Node Payload) (timedOut : List String) : List Nack :=
  (x.firstInFlight timedOut).toList.map .received

def Service.nacks (s : Service Node Payload) : Action Node Payload → List Nack
  | .negativeAcknowledge n messageId => (s.nodes n).receives [messageId]
  | .checkTimeouts n now => (s.nodes n).receives ((s.nodes n).timedOut now)
  | .resume n k =>
    match (s.nodes n).calls[k]? with
    | some (.requeue msg timedOut) =>
      (s.nodes n).receives (timedOut.getD []) ++ [.processed msg.messageId]
    | _ => []
  | _ => []

def nackedQueue (cfg : Config Node Payload) :
    System (Service Node Payload × List Nack) (Action Node Payload) :=
  (queue cfg).watched id [] fun s nacks a => some (s.nacks a ++ nacks)

theorem nacked_reachable (h : (queue cfg).Reachable s) :
    ∃ nacks, (nackedQueue cfg).Reachable (s, nacks) :=
  h.watched

def deliveries (h : List (Event Node Payload)) : List String :=
  h.filterMap Event.takes

/-- What is in a list was nacked as often as it says, less than `max_retries` times; no message is
delivered more often than that; and the dead-letter list has those whose last push was for the
`max_retries`-th. -/
structure Service.BoundedRedelivery (maxRetries : Nat) (s : Service Node Payload)
    (nacks : List Nack) : Prop where
  listed : ∀ home, ∀ m ∈ s.redis.queue home,
    m.retryCount = nacks.count (.received m.messageId) ∧ m.retryCount < maxRetries
  delivered : ∀ messageId, (deliveries s.history).count messageId ≤ maxRetries
  buried : ∀ m ∈ pushes s.history,
    m.messageId ∈ (s.redis.dlq m.home).map Message.messageId ↔
      nacks.count (.processed m.messageId) = maxRetries

structure Tally where
  received : Nat
  processed : Nat
  delivered : Nat

def tally (s : Service Node Payload) (nacks : List Nack) (messageId : String) : Tally where
  received := nacks.count (.received messageId)
  processed := nacks.count (.processed messageId)
  delivered := (deliveries s.history).count messageId

def Spot.Fits (maxRetries retryCount : Nat) (c : Tally) : Spot Node → Prop
  | .node _ .waiting | .queue _ =>
    retryCount = c.received ∧ c.processed = c.received ∧ c.delivered = c.received ∧
      c.received < maxRetries
  | .node _ .carried =>
    retryCount = c.received ∧ c.processed + 1 = c.received ∧ c.delivered = c.received ∧
      c.received ≤ maxRetries
  | .dead _ =>
    retryCount = c.received ∧ c.processed = c.received ∧ c.delivered = c.received ∧
      c.received = maxRetries
  | .node _ .inFlight | .node _ .committing | .done =>
    retryCount = c.received ∧ c.processed = c.received ∧ c.delivered = c.received + 1 ∧
      c.received < maxRetries

/-- The books are right wherever a message is, and empty before its first push. -/
structure Service.Tallied (maxRetries : Nat) (s : Service Node Payload) (nacks : List Nack) :
    Prop where
  fits : ∀ i, ∀ m ∈ s.box i, i.Fits maxRetries m.retryCount (tally s nacks m.messageId)
  unpushed : ∀ messageId, messageId ∉ (pushes s.history).map Message.messageId →
    tally s nacks messageId = ⟨0, 0, 0⟩

section Rule
variable {maxRetries : Nat} {nacks nacks' : List Nack}

omit [DecidableEq Node] in
theorem Spot.Fits.bounds {i : Spot Node} {retryCount : Nat} {c : Tally}
    (h : i.Fits maxRetries retryCount c) :
    c.delivered ≤ maxRetries ∧ ((∀ home, i ≠ .dead home) → c.processed < maxRetries) := by
  cases i with
  | node n sh =>
    cases sh <;> obtain ⟨-, hp, hd, hm⟩ := h <;> exact ⟨by omega, fun _ => by omega⟩
  | queue home =>
    obtain ⟨-, hp, hd, hm⟩ := h
    exact ⟨by omega, fun _ => by omega⟩
  | dead home =>
    obtain ⟨-, hp, hd, hm⟩ := h
    exact ⟨by omega, fun hne => absurd rfl (hne home)⟩
  | done =>
    obtain ⟨-, hp, hd, hm⟩ := h
    exact ⟨by omega, fun _ => by omega⟩

/-- The messages `ms` have moved, each to its destination. Only what is known of these changed. -/
theorem Service.Tallied.ship {place : String → Option (Spot Node)}
    (h : s.Tallied maxRetries nacks) (hk : Kept t place) (ms : List (Message Node Payload))
    (dest : Message Node Payload → Spot Node)
    (hbox : ∀ i, ∀ m ∈ t.box i, m ∈ s.box i ∨ m ∈ ms ∧ dest m = i)
    (hms : ∀ m ∈ ms, m ∈ t.box (dest m) ∧
      (dest m).Fits maxRetries m.retryCount (tally t nacks' m.messageId))
    (hold : ∀ messageId, tally t nacks' messageId = tally s nacks messageId ∨
      messageId ∈ ms.map Message.messageId ∧
        messageId ∈ (pushes s.history).map Message.messageId)
    (hpush : pushes s.history ⊆ pushes t.history) : t.Tallied maxRetries nacks' where
  fits i m hm := by
    cases hbox i m hm with
    | inr hmoved =>
      obtain ⟨hmem, rfl⟩ := hmoved
      exact (hms m hmem).2
    | inl hmem =>
      cases hold m.messageId with
      | inl hsame =>
        rw [hsame]
        exact h.fits i m hmem
      | inr hchanged =>
        obtain ⟨m', hm', hid⟩ := List.mem_map.mp hchanged.1
        have hplace := hk.custody.place_of_mem (hms m' hm').1
        rw [hid, hk.custody.place_of_mem hm] at hplace
        -- there is one message with that identity, and it moved here
        have hi : i = dest m' := Option.some.inj hplace
        have heq : m = m' :=
          List.inj_on_of_nodup_map (hk.custody.nodup i) hm (hi ▸ (hms m' hm').1) hid.symm
        rw [hi, heq]
        exact (hms m' hm').2
  unpushed messageId hid := by
    have hbefore : messageId ∉ (pushes s.history).map Message.messageId :=
      fun hmem => hid (List.map_subset _ hpush hmem)
    cases hold messageId with
    | inl hsame => rw [hsame, h.unpushed messageId hbefore]
    | inr hchanged => exact absurd hchanged.2 hbefore

theorem Service.Tallied.shipOne {place place' : String → Option (Spot Node)}
    (h : s.Tallied maxRetries nacks) (hkept : Kept s place) (hk : Kept t place') {i : Spot Node}
    {m : Message Node Payload} (hm : m ∈ s.box i) (hi : i.waits = false) (j : Spot Node)
    (m' : Message Node Payload) (hid : m'.messageId = m.messageId) (hm' : m' ∈ t.box j)
    (hfits : j.Fits maxRetries m'.retryCount (tally t nacks' m.messageId))
    (hbox : ∀ i, ∀ x ∈ t.box i, x ∈ s.box i ∨ x ∈ [m'] ∧ j = i)
    (hold : ∀ messageId, m.messageId ≠ messageId →
      tally t nacks' messageId = tally s nacks messageId)
    (hpush : pushes s.history ⊆ pushes t.history) : t.Tallied maxRetries nacks' := by
  refine h.ship hk [m'] (fun _ => j) hbox (fun x hx => ?_) (fun messageId => ?_) hpush
  · cases List.mem_singleton.mp hx
    exact ⟨hm', hid ▸ hfits⟩
  · by_cases he : m.messageId = messageId
    · obtain ⟨m₀, hm₀, hid₀, -⟩ := hkept.origin i hi m hm
      rw [← he]
      exact .inr ⟨List.mem_singleton.mpr hid.symm, hid₀ ▸ List.mem_map_of_mem hm₀⟩
    · exact .inl (hold messageId he)

end Rule

section Move
variable {n : Node} {y : QueueNode Node Payload} {r : Redis Node Payload}
  {evs : List (Event Node Payload)}

theorem mem_box_move {P : Spot Node → Message Node Payload → Prop}
    (hnode : ∀ sh, ∀ m ∈ y.shelf sh, m ∈ (s.nodes n).shelf sh ∨ P (.node n sh) m)
    (hqueue : ∀ home, ∀ m ∈ r.queue home, m ∈ s.redis.queue home ∨ P (.queue home) m)
    (hdead : ∀ home, ∀ m ∈ r.dlq home, m ∈ s.redis.dlq home ∨ P (.dead home) m)
    (hdone : ∀ m ∈ acknowledgedMessages evs, P .done m) (i : Spot Node)
    (m : Message Node Payload) (hm : m ∈ (s.move n y r evs).box i) : m ∈ s.box i ∨ P i m := by
  cases i with
  | node n' sh =>
    by_cases hn : n' = n
    · subst hn
      rw [Service.box, move_self] at hm
      exact hnode sh m hm
    · rw [Service.box, move_of_ne _ _ _ _ hn] at hm
      exact .inl hm
  | queue home => exact hqueue home m hm
  | dead home => exact hdead home m hm
  | done =>
    rw [Service.box, move_history, acknowledgedMessages_append] at hm
    exact (List.mem_append.mp hm).symm.imp_right (hdone m)

omit [DecidableEq Node] in
theorem deliveries_append (h h' : List (Event Node Payload)) :
    deliveries (h ++ h') = deliveries h ++ deliveries h' :=
  List.filterMap_append

omit [DecidableEq Node] in
theorem deliveries_eq_nil {evs : List (Event Node Payload)} (h : ∀ e ∈ evs, e.takes = none) :
    deliveries evs = [] :=
  List.filterMap_eq_nil_iff.mpr h

theorem tally_move (hquiet : ∀ e ∈ evs, e.takes = none) (nacks : List Nack) (messageId : String) :
    tally (s.move n y r evs) nacks messageId = tally s nacks messageId := by
  simp only [tally, move_history, deliveries_append, deliveries_eq_nil hquiet, List.nil_append]

theorem pushes_subset_move : pushes s.history ⊆ pushes (s.move n y r evs).history := by
  rw [move_history, pushes_append]
  exact List.subset_append_right _ _

end Move

omit [DecidableEq Node] in
theorem checkTimedOut_cases (x : QueueNode Node Payload) (timedOut : List String) :
    (x.firstInFlight timedOut = none ∧ x.checkTimedOut timedOut = x) ∨
      ∃ before messageId rest, timedOut = before ++ messageId :: rest ∧
        (∀ i ∈ before, x.inFlight.get? i = none) ∧ x.firstInFlight timedOut = some messageId ∧
        x.negativeAcknowledge messageId (some rest) = some (x.checkTimedOut timedOut) := by
  induction timedOut with
  | nil => exact .inl ⟨rfl, rfl⟩
  | cons messageId timedOut ih =>
    cases hm : x.inFlight.get? messageId with
    | none =>
      have hfirst : x.firstInFlight (messageId :: timedOut) = x.firstInFlight timedOut := by
        simp only [QueueNode.firstInFlight, List.find?_cons, hm, Option.isSome_none]
      have hchecked : x.checkTimedOut (messageId :: timedOut) = x.checkTimedOut timedOut := by
        simp only [QueueNode.checkTimedOut, QueueNode.negativeAcknowledge, hm, Option.map_none]
      rw [hfirst, hchecked]
      refine ih.imp_right ?_
      rintro ⟨before, messageId', rest, rfl, hbefore, hnext⟩
      exact ⟨messageId :: before, messageId', rest, rfl, List.forall_mem_cons.mpr ⟨hm, hbefore⟩,
        hnext⟩
    | some msg =>
      refine .inr ⟨[], messageId, timedOut, rfl, List.forall_mem_nil _, ?_, ?_⟩
      · simp only [QueueNode.firstInFlight, List.find?_cons, hm, Option.isSome_some]
      · simp only [QueueNode.checkTimedOut, QueueNode.negativeAcknowledge, hm, Option.map_some]

theorem mem_ite_append {i j : Spot Node} {m msg : Message Node Payload}
    {l : List (Message Node Payload)} (h : m ∈ (if j = i then [msg] else []) ++ l) :
    m ∈ l ∨ m ∈ [msg] ∧ j = i := by
  cases List.mem_append.mp h with
  | inr hold => exact .inl hold
  | inl hnew =>
    by_cases hj : j = i
    · rw [if_pos hj] at hnew
      exact .inr ⟨hnew, hj⟩
    · rw [if_neg hj] at hnew
      cases hnew

section Shelves
variable {x : QueueNode Node Payload} {messageId : String} {msg : Message Node Payload}
  (hm : x.inFlight.get? messageId = some msg)
include hm

omit [DecidableEq Node] in
theorem mem_shelf_inFlight : msg ∈ x.shelf .inFlight :=
  List.mem_append_left _ (List.mem_map.mpr ⟨_, Dict.get?_eq_some.mp hm, rfl⟩)

omit [DecidableEq Node] in
theorem mem_shelf_replace {n : Node} {a sh : Shelf} {m m' : Message Node Payload}
    {call : Call Node Payload} (hcall : ∀ sh, call.shelf sh = if sh = a then [m'] else [])
    (hmem : m ∈ ((x.untrack messageId).suspend call).shelf sh) :
    m ∈ x.shelf sh ∨ m ∈ [m'] ∧ .node n a = Spot.node n sh := by
  cases List.mem_append.mp ((shelf_suspend _ call sh).subset hmem) with
  | inl hnew =>
    rw [hcall] at hnew
    by_cases hsh : sh = a
    · rw [if_pos hsh] at hnew
      exact .inr ⟨hnew, hsh ▸ rfl⟩
    · rw [if_neg hsh] at hnew
      cases hnew
  | inr hold => exact .inl ((shelf_untrack x hm sh).symm.subset (List.mem_append_right _ hold))

end Shelves

omit [DecidableEq Node] in
theorem mem_shelf_track {x : QueueNode Node Payload} {msg m : Message Node Payload} {sh : Shelf}
    (h : m ∈ (x.track msg).shelf sh) : m ∈ x.shelf sh ∨ m = msg ∧ sh = .inFlight := by
  cases List.mem_append.mp h with
  | inr hcalls => exact .inl (List.mem_append_right _ hcalls)
  | inl hflight =>
    by_cases hsh : sh = .inFlight
    · rw [if_pos hsh] at hflight
      obtain ⟨e, he, rfl⟩ := List.mem_map.mp hflight
      have hget : (x.inFlight.set msg.messageId msg).get? e.1 = some e.2 := Dict.get?_eq_some.mpr he
      rw [Dict.get?_set] at hget
      split at hget
      · exact .inr ⟨(Option.some.inj hget).symm, hsh⟩
      · subst hsh
        exact .inl (mem_shelf_inFlight hget)
    · rw [if_neg hsh] at hflight
      cases hflight

section Step
variable {maxRetries : Nat} {nacks : List Nack} (h : s.Tallied maxRetries nacks) {n : Node}
include h

theorem Service.Tallied.relocate {y : QueueNode Node Payload} {r : Redis Node Payload}
    {evs : List (Event Node Payload)}
    (hk : ∃ place, Kept (s.move n y r evs) place) (ms : List (Message Node Payload))
    (dest : Message Node Payload → Spot Node)
    (hbox : ∀ i, ∀ m ∈ (s.move n y r evs).box i, m ∈ s.box i ∨ m ∈ ms ∧ dest m = i)
    (hms : ∀ m ∈ ms, m ∈ (s.move n y r evs).box (dest m) ∧
      (dest m).Fits maxRetries m.retryCount (tally s nacks m.messageId))
    (hquiet : ∀ e ∈ evs, e.takes = none) : (s.move n y r evs).Tallied maxRetries nacks := by
  obtain ⟨place, hk⟩ := hk
  refine h.ship hk ms dest hbox (fun m hm => ?_) (fun messageId => .inl (tally_move hquiet _ _))
    pushes_subset_move
  rw [tally_move hquiet]
  exact hms m hm

theorem Service.Tallied.idle {y : QueueNode Node Payload} {r : Redis Node Payload}
    {evs : List (Event Node Payload)} (hk : ∃ place, Kept (s.move n y r evs) place)
    (hshelf : ∀ sh, (y.shelf sh).Perm ((s.nodes n).shelf sh)) (hqueue : r.queue = s.redis.queue)
    (hdead : r.dlq = s.redis.dlq) (hdone : acknowledgedMessages evs = [])
    (hquiet : ∀ e ∈ evs, e.takes = none) : (s.move n y r evs).Tallied maxRetries nacks := by
  refine h.relocate hk [] (fun _ => .done) (mem_box_move ?_ ?_ ?_ ?_) nofun hquiet
  · exact fun sh m hm => .inl ((hshelf sh).subset hm)
  · exact fun home m hm => .inl (hqueue ▸ hm)
  · exact fun home m hm => .inl (hdead ▸ hm)
  · exact fun m hm => absurd (hdone ▸ hm) List.not_mem_nil

theorem Service.Tallied.accept (hmax : 1 ≤ maxRetries) {place : String → Option (Spot Node)}
    (hkept : Kept s place) (ms : List (Message Node Payload)) {call : Call Node Payload}
    {evs : List (Event Node Payload)}
    (hk : ∃ place, Kept (s.move n ((s.nodes n).suspend call) s.redis evs) place)
    (hwaiting : ∀ m, m ∈ call.shelf .waiting ↔ m ∈ ms)
    (hother : ∀ sh, sh ≠ .waiting → call.shelf sh = [])
    (hfresh : ∀ m ∈ ms, m.messageId ∉ createdIds s.history) (hnew : ∀ m ∈ ms, m.retryCount = 0)
    (hdone : acknowledgedMessages evs = []) (hquiet : ∀ e ∈ evs, e.takes = none) :
    (s.move n ((s.nodes n).suspend call) s.redis evs).Tallied maxRetries nacks := by
  refine h.relocate hk ms (fun _ => .node n .waiting)
    (mem_box_move (fun sh m hm => ?_) (fun home m => .inl) (fun home m => .inl) ?_)
    (fun m hm => ⟨?_, ?_⟩) hquiet
  · cases List.mem_append.mp ((shelf_suspend _ call sh).subset hm) with
    | inr hold => exact .inl hold
    | inl harrived =>
      by_cases hsh : sh = .waiting
      · subst hsh
        exact .inr ⟨(hwaiting m).mp harrived, rfl⟩
      · rw [hother sh hsh] at harrived
        cases harrived
  · exact fun m hm => absurd (hdone ▸ hm) List.not_mem_nil
  · rw [Service.box, move_self]
    exact (shelf_suspend _ call _).symm.subset (List.mem_append_left _ ((hwaiting m).mpr hm))
  · have hunpushed : m.messageId ∉ (pushes s.history).map Message.messageId := by
      intro hmem
      obtain ⟨m', hm', hid⟩ := List.mem_map.mp hmem
      obtain ⟨i, hi, -⟩ := hkept.pushed m' hm'
      exact hfresh m hm (hid ▸ hkept.created _ i hi)
    rw [h.unpushed _ hunpushed, hnew m hm]
    exact ⟨rfl, rfl, rfl, hmax⟩

theorem Service.Tallied.push (ms : List (Message Node Payload)) {k : Nat}
    {call : Call Node Payload} {y : QueueNode Node Payload} {evs : List (Event Node Payload)}
    (hk : ∃ place, Kept (s.move n y (ms.foldl Redis.rpush s.redis) evs) place)
    (hcall : (s.nodes n).calls[k]? = some call) (hwaiting : call.shelf .waiting = ms)
    (hshelf : ∀ sh, (y.shelf sh).Perm (((s.nodes n).wake k).shelf sh))
    (hdone : acknowledgedMessages evs = []) (hquiet : ∀ e ∈ evs, e.takes = none) :
    (s.move n y (ms.foldl Redis.rpush s.redis) evs).Tallied maxRetries nacks := by
  have hwake := shelf_wake (s.nodes n) hcall
  refine h.relocate hk ms (fun m => .queue m.home)
    (mem_box_move (fun sh m hm => ?_) (fun home m hm => ?_) (fun home m hm => ?_) ?_)
    (fun m hm => ⟨?_, ?_⟩) hquiet
  · exact .inl ((hwake sh).symm.subset (List.mem_append_right _ ((hshelf sh).subset hm)))
  · rw [queue_foldl_rpush] at hm
    refine (List.mem_append.mp hm).imp_right fun hnew => ?_
    obtain ⟨hmem, hhome⟩ := List.mem_filter.mp hnew
    exact ⟨hmem, congrArg _ (of_decide_eq_true hhome)⟩
  · rw [dlq_foldl_rpush] at hm
    exact .inl hm
  · exact fun m hm => absurd (hdone ▸ hm) List.not_mem_nil
  · rw [Service.box, move_redis, queue_foldl_rpush]
    exact List.mem_append_right _ (List.mem_filter.mpr ⟨hm, decide_eq_true rfl⟩)
  · have hmem : m ∈ s.box (.node n .waiting) := by
      refine (hwake .waiting).symm.subset (List.mem_append_left _ ?_)
      rwa [hwaiting]
    exact h.fits (.node n .waiting) m hmem

theorem Service.Tallied.acknowledge {messageId : String} {msg : Message Node Payload}
    (hk : ∃ place, Kept (s.move n (((s.nodes n).untrack messageId).suspend (.set msg)) s.redis
      [.acknowledging n msg]) place)
    (hm : (s.nodes n).inFlight.get? messageId = some msg) :
    (s.move n (((s.nodes n).untrack messageId).suspend (.set msg)) s.redis
      [.acknowledging n msg]).Tallied maxRetries nacks := by
  refine h.relocate hk [msg] (fun _ => .node n .committing)
    (mem_box_move (fun sh m hm' => ?_) (fun home m => .inl) (fun home m => .inl) nofun)
    (fun m hm' => ?_) (by simp [Event.takes])
  · exact mem_shelf_replace hm (fun sh => by cases sh <;> rfl) hm'
  · cases List.mem_singleton.mp hm'
    rw [Service.box, move_self]
    refine ⟨(shelf_suspend _ _ _).symm.subset List.mem_cons_self, ?_⟩
    exact h.fits (.node n .inFlight) msg (mem_shelf_inFlight hm)

theorem Service.Tallied.set {k : Nat} {msg : Message Node Payload}
    (hk : ∃ place, Kept (s.move n ((s.nodes n).wake k) (s.redis.commit msg)
      [.acknowledged n msg]) place)
    (hcall : (s.nodes n).calls[k]? = some (.set msg)) :
    (s.move n ((s.nodes n).wake k) (s.redis.commit msg) [.acknowledged n msg]).Tallied
      maxRetries nacks := by
  have hwake := shelf_wake (s.nodes n) hcall
  refine h.relocate hk [msg] (fun _ => .done)
    (mem_box_move (fun sh m hm => ?_) (fun home m => .inl) (fun home m => .inl) ?_)
    (fun m hm => ?_) (by simp [Event.takes])
  · exact .inl ((hwake sh).symm.subset (List.mem_append_right _ hm))
  · exact fun m hm => ⟨hm, rfl⟩
  · cases List.mem_singleton.mp hm
    refine ⟨List.mem_cons_self, ?_⟩
    exact h.fits (.node n .committing) msg ((hwake .committing).symm.subset List.mem_cons_self)

theorem Service.Tallied.negativeAcknowledge {place : String → Option (Spot Node)}
    (hkept : Kept s place) {messageId : String} {timedOut : Option (List String)}
    {y : QueueNode Node Payload}
    (hy : (s.nodes n).negativeAcknowledge messageId timedOut = some y) :
    (s.move n y s.redis []).Tallied maxRetries (.received messageId :: nacks) := by
  obtain ⟨place', hk⟩ := hkept.negativeAcknowledge hy
  obtain ⟨msg, hm, rfl⟩ := negativeAcknowledge_eq_some hy
  have hid : msg.messageId = messageId := (hkept.keyed n).messageId_eq hm
  subst hid
  have hmem : msg ∈ s.box (.node n .inFlight) := mem_shelf_inFlight hm
  have htally (messageId : String) :
      tally (s.move n (((s.nodes n).untrack msg.messageId).suspend
        (.requeue { msg with retryCount := msg.retryCount + 1 } timedOut)) s.redis [])
        (.received msg.messageId :: nacks) messageId =
      { tally s nacks messageId with
        received := (tally s nacks messageId).received +
          if msg.messageId = messageId then 1 else 0 } := by
    simp only [tally, move_history, List.nil_append, List.count_cons, beq_iff_eq, reduceCtorEq,
      if_false, Nat.add_zero, Nack.received.injEq]
  refine h.shipOne hkept hk hmem rfl (.node n .carried)
    { msg with retryCount := msg.retryCount + 1 } rfl ?_ ?_
    (mem_box_move (fun sh m hm' => ?_) (fun home m => .inl) (fun home m => .inl) nofun)
    (fun messageId hne => ?_) pushes_subset_move
  · rw [Service.box, move_self]
    exact (shelf_suspend _ _ _).symm.subset List.mem_cons_self
  · rw [htally, if_pos rfl]
    obtain ⟨hr, hp, hd, hlt⟩ := h.fits (.node n .inFlight) msg hmem
    exact ⟨congrArg (· + 1) hr, congrArg (· + 1) hp, hd, hlt⟩
  · exact mem_shelf_replace hm (fun sh => by cases sh <;> rfl) hm'
  · rw [htally, if_neg hne]
    rfl

theorem Service.Tallied.checkTimedOut {place : String → Option (Spot Node)} (hkept : Kept s place)
    (timedOut : List String) :
    (s.move n ((s.nodes n).checkTimedOut timedOut) s.redis []).Tallied maxRetries
      ((s.nodes n).receives timedOut ++ nacks) := by
  cases checkTimedOut_cases (s.nodes n) timedOut with
  | inl hidle =>
    rw [QueueNode.receives, hidle.1, hidle.2]
    exact h.idle (hkept.idle (fun _ => .refl _) (hkept.keyed n) rfl rfl rfl rfl (by simp))
      (fun _ => .refl _) rfl rfl rfl nofun
  | inr hnext =>
    obtain ⟨before, messageId, rest, -, -, hfirst, hy⟩ := hnext
    rw [QueueNode.receives, hfirst]
    exact h.negativeAcknowledge hkept hy

theorem Service.Tallied.lpop {place : String → Option (Spot Node)} (hkept : Kept s place)
    {k : Nat} {topic : String} {p : Int} {rest : List Int} {batchSize : Nat}
    {messages : List (Message Node Payload)} {raw : Message Node Payload}
    (hcall : (s.nodes n).calls[k]? = some (.lpop topic p rest batchSize messages))
    (hq : s.redis.queue (topic, p) = raw :: (s.redis.queue (topic, p)).tail)
    {r : QueueNode Node Payload × Option (List (Message Node Payload))}
    (hr : r = (((s.nodes n).wake k).track { raw with partition := p }).poll topic batchSize
      (messages ++ [{ raw with partition := p }]) rest) :
    (s.move n r.1 (s.redis.pop (topic, p))
      (returns n r.2 ++ [.taken n { raw with partition := p }])).Tallied maxRetries nacks := by
  obtain ⟨place', hk⟩ := hkept.lpop hcall hq hr
  have hraw : raw ∈ s.box (.queue (topic, p)) := by
    rw [Service.box, hq]
    exact List.mem_cons_self
  have hsame : { raw with partition := p } = raw := by
    rw [← (Prod.mk.inj (hkept.filed (.queue (topic, p)) _ rfl raw hraw)).2]
  rw [hsame] at hk hr ⊢
  have hshelf (sh : Shelf) (m : Message Node Payload) :
      m ∈ r.1.shelf sh ↔ m ∈ (((s.nodes n).wake k).track raw).shelf sh := by
    rw [hr]
    exact (shelf_poll _ _ _ _ _ sh).mem_iff
  have hdeliveries : deliveries (returns n r.2 ++ [.taken n raw]) = [raw.messageId] := by
    rw [deliveries_append, deliveries_eq_nil takes_returns]
    rfl
  have htally (messageId : String) :
      tally (s.move n r.1 (s.redis.pop (topic, p)) (returns n r.2 ++ [.taken n raw])) nacks
        messageId =
      { tally s nacks messageId with
        delivered := (tally s nacks messageId).delivered +
          if raw.messageId = messageId then 1 else 0 } := by
    simp only [tally, move_history, deliveries_append, hdeliveries, List.singleton_append,
      List.count_cons, beq_iff_eq]
  refine h.shipOne hkept hk hraw rfl (.node n .inFlight) raw rfl ?_ ?_
    (mem_box_move (fun sh m hm => ?_) (fun home m hm => ?_) (fun home m => .inl) ?_)
    (fun messageId hne => ?_) pushes_subset_move
  · rw [Service.box, move_self, hshelf]
    exact mem_shelf_inFlight (Dict.get?_set_self _ _ _)
  · rw [htally, if_pos rfl]
    obtain ⟨hr, hp, hd, hlt⟩ := h.fits (.queue (topic, p)) raw hraw
    exact ⟨hr, hp, congrArg (· + 1) hd, hlt⟩
  · refine (mem_shelf_track ((hshelf sh m).mp hm)).imp (fun hold => ?_) fun hnew => ?_
    · exact (shelf_wake (s.nodes n) hcall sh).symm.subset (List.mem_append_right _ hold)
    · exact ⟨List.mem_singleton.mpr hnew.1, hnew.2 ▸ rfl⟩
  · rw [queue_pop] at hm
    split at hm
    · exact .inl (List.mem_of_mem_tail hm)
    · exact .inl hm
  · rw [acknowledgedMessages_append, acknowledgedMessages_returns]
    exact List.forall_mem_nil _
  · rw [htally, if_neg hne]
    rfl

theorem Service.Tallied.pushAgain {place : String → Option (Spot Node)} (hkept : Kept s place)
    {k : Nat} {msg : Message Node Payload} {timedOut : Option (List String)} (j : Spot Node)
    {r : Redis Node Payload} (hcall : (s.nodes n).calls[k]? = some (.requeue msg timedOut))
    (hk : ∃ place, Kept (s.move n ((s.nodes n).wake k) r []) place)
    (hj : j = .queue msg.home ∧ msg.retryCount < maxRetries ∨
      j = .dead msg.home ∧ maxRetries ≤ msg.retryCount)
    (hgains : s.redis.Gains r j msg) :
    (s.move n ((s.nodes n).wake k) r []).Tallied maxRetries
      (.processed msg.messageId :: nacks) := by
  obtain ⟨place', hk⟩ := hk
  have hwake := shelf_wake (s.nodes n) hcall
  have hmem : msg ∈ s.box (.node n .carried) := (hwake .carried).symm.subset List.mem_cons_self
  have htally (messageId : String) :
      tally (s.move n ((s.nodes n).wake k) r []) (.processed msg.messageId :: nacks) messageId =
      { tally s nacks messageId with
        processed := (tally s nacks messageId).processed +
          if msg.messageId = messageId then 1 else 0 } := by
    simp only [tally, move_history, List.nil_append, List.count_cons, beq_iff_eq, reduceCtorEq,
      if_false, Nat.add_zero, Nack.processed.injEq]
  obtain ⟨hr, hp, hd, hle⟩ := h.fits (.node n .carried) msg hmem
  have harrives : msg ∈ (s.move n ((s.nodes n).wake k) r []).box j ∧ j.Fits maxRetries
      msg.retryCount (tally (s.move n ((s.nodes n).wake k) r [])
        (.processed msg.messageId :: nacks) msg.messageId) := by
    rw [htally, if_pos rfl]
    cases hj with
    | inl hlist =>
      obtain ⟨rfl, hlt⟩ := hlist
      exact ⟨(hgains.queue _).symm.subset (by simp), hr, hp, hd, hr ▸ hlt⟩
    | inr hbury =>
      obtain ⟨rfl, hge⟩ := hbury
      exact ⟨(hgains.dead _).symm.subset (by simp), hr, hp, hd, le_antisymm hle (hr ▸ hge)⟩
  refine h.shipOne hkept hk hmem rfl j msg rfl harrives.1 harrives.2
    (mem_box_move (fun sh m hm => ?_) (fun home m hm => ?_) (fun home m hm => ?_) nofun)
    (fun messageId hne => ?_) pushes_subset_move
  · exact .inl ((hwake sh).symm.subset (List.mem_append_right _ hm))
  · exact mem_ite_append ((hgains.queue home).subset hm)
  · exact mem_ite_append ((hgains.dead home).subset hm)
  · rw [htally, if_neg hne]
    rfl

theorem Service.Tallied.nack {place : String → Option (Spot Node)} (hkept : Kept s place)
    (messageId : String) :
    (s.negativeAcknowledge n messageId).Tallied maxRetries
      ((s.nodes n).receives [messageId] ++ nacks) := by
  unfold Service.negativeAcknowledge QueueNode.receives QueueNode.firstInFlight
  cases hm : (s.nodes n).inFlight.get? messageId with
  | none =>
    rw [QueueNode.negativeAcknowledge, hm, List.find?_singleton, hm]
    exact h
  | some msg =>
    have hy : (s.nodes n).negativeAcknowledge messageId none =
        some (((s.nodes n).untrack messageId).suspend
          (.requeue { msg with retryCount := msg.retryCount + 1 } none)) := by
      rw [QueueNode.negativeAcknowledge, hm, Option.map_some]
    rw [hy, List.find?_singleton, hm]
    exact h.negativeAcknowledge hkept hy

theorem Service.Tallied.requeue {place : String → Option (Spot Node)} (hkept : Kept s place)
    {k : Nat} {msg : Message Node Payload} {timedOut : Option (List String)} (j : Spot Node)
    {r : Redis Node Payload} (hcall : (s.nodes n).calls[k]? = some (.requeue msg timedOut))
    (hj : j = .queue msg.home ∧ msg.retryCount < maxRetries ∨
      j = .dead msg.home ∧ maxRetries ≤ msg.retryCount)
    (hgains : s.redis.Gains r j msg) :
    (s.move n (((s.nodes n).wake k).checkTimedOut (timedOut.getD [])) r []).Tallied maxRetries
      (s.nacks (.resume n k) ++ nacks) := by
  have hhome : j.home? = some msg.home := by
    obtain ⟨rfl, -⟩ | ⟨rfl, -⟩ := hj <;> rfl
  have hk := hkept.pushAgain j hcall hhome hgains
  have hpushed := h.pushAgain hkept j hcall hk hj hgains
  obtain ⟨place', hk⟩ := hk
  have hchecked := hpushed.checkTimedOut (n := n) hk (timedOut.getD [])
  have hnacks : s.nacks (.resume n k) =
      ((s.nodes n).wake k).receives (timedOut.getD []) ++ [.processed msg.messageId] := by
    simp only [Service.nacks, hcall]
    rfl
  rwa [move_self, move_move, move_redis, List.append_nil, List.append_cons, ← hnacks] at hchecked

end Step

omit [DecidableEq Node] in
theorem Service.nacks_resume {n : Node} {k : Nat} {call : Call Node Payload}
    (hk : (s.nodes n).calls[k]? = some call) (hcall : call.shelf .carried = []) :
    s.nacks (.resume n k) = [] := by
  simp only [Service.nacks, hk]
  cases call with
  | requeue msg timedOut => cases hcall
  | _ => rfl

theorem Service.Tallied.step {place : String → Option (Spot Node)} {nacks : List Nack}
    (hmax : 1 ≤ cfg.maxRetries) (hkept : Kept s place) (h : s.Tallied cfg.maxRetries nacks)
    {a : Action Node Payload} (hs : (queue cfg).step s a = some t) :
    t.Tallied cfg.maxRetries (s.nacks a ++ nacks) := by
  have hk := hkept.step hs
  cases step_cases hs with
  | produce n topic payload key headers messageId timestamp hfresh =>
    unfold QueueNode.produce at hk ⊢
    split
    · rename_i hlarge
      rw [if_pos hlarge] at hk
      exact h.idle hk (fun _ => .refl _) rfl rfl rfl (by simp [Event.takes])
    · rename_i hfits
      rw [if_neg hfits] at hk
      exact h.accept hmax hkept [cfg.message n topic payload key headers messageId timestamp] hk
        (fun m => .rfl) (fun sh hsh => by cases sh <;> first | rfl | exact absurd rfl hsh)
        (by simpa [Config.message] using hfresh) (by simp [Config.message]) rfl
        (by simp [Event.takes])
  | produceBatch n topic items hnodup hfresh =>
    refine h.accept hmax hkept (cfg.batch n topic items) hk (fun m => (pipeline_perm _).mem_iff)
      (fun sh hsh => by cases sh <;> first | rfl | exact absurd rfl hsh) hfresh (fun m hm => ?_)
      (by simp [acknowledgedMessages]) (by simp [Event.takes])
    obtain ⟨i, hi, rfl⟩ := List.mem_mapIdx.mp hm
    rfl
  | consume n topic groupId consumerId partitions batchSize =>
    exact h.idle hk (fun sh => shelf_poll _ _ _ _ _ sh) rfl rfl (acknowledgedMessages_returns _)
      takes_returns
  | acknowledge n messageId msg hm => exact h.acknowledge hk hm
  | acknowledgeUnknown n messageId => exact h
  | negativeAcknowledge n messageId y hy => exact Option.some.inj hs ▸ h.nack hkept messageId
  | negativeAcknowledgeUnknown n messageId =>
    have hnack := h.nack hkept (n := n) messageId
    rwa [Option.some.inj hs] at hnack
  | checkTimeouts n now => exact h.checkTimedOut hkept _
  | rpush n k msg hcall =>
    rw [Service.nacks_resume hcall rfl]
    exact h.push [msg] hk hcall rfl
      (fun sh => (shelf_suspend _ _ sh).trans (by cases sh <;> exact .refl _)) rfl
      (by simp [Event.takes])
  | incr n k msg hcall =>
    rw [Service.nacks_resume hcall rfl]
    exact h.idle hk (shelf_wake_idle hcall fun sh => by cases sh <;> rfl) rfl rfl rfl
      (by simp [Event.takes])
  | execute n k pipe hcall =>
    rw [Service.nacks_resume hcall rfl]
    exact h.push pipe hk hcall rfl (fun sh => .refl _) (by simp [acknowledgedMessages])
      (by simp [Event.takes])
  | lpopEmpty n k topic p rest batchSize messages hcall =>
    rw [Service.nacks_resume hcall rfl]
    refine h.idle hk (fun sh => (shelf_poll _ _ _ _ _ sh).trans ?_) rfl rfl
      (acknowledgedMessages_returns _) takes_returns
    exact shelf_wake_idle hcall (fun sh => by cases sh <;> rfl) sh
  | lpop n k topic p rest batchSize messages raw hcall hq r hr =>
    rw [Service.nacks_resume hcall rfl]
    exact h.lpop hkept hcall hq hr
  | set n k msg hcall =>
    rw [Service.nacks_resume hcall rfl]
    exact h.set hk hcall
  | bury n k msg timedOut hcall hge =>
    exact h.requeue hkept (.dead msg.home) hcall (.inr ⟨rfl, hge⟩) (s.redis.gains_bury msg)
  | requeue n k msg timedOut hcall hlt =>
    exact h.requeue hkept (.queue msg.home) hcall (.inl ⟨rfl, hlt⟩) (s.redis.gains_lpush msg)

theorem tallied_reach (hmax : 1 ≤ cfg.maxRetries) {p : Service Node Payload × List Nack}
    (h : (nackedQueue cfg).Reachable p) : p.1.Tallied cfg.maxRetries p.2 := by
  have hempty : ((queue cfg).init).Tallied cfg.maxRetries [] :=
    ⟨fun i m hm => absurd (Kept.init.custody.place_of_mem hm) nofun, fun _ _ => rfl⟩
  refine h.invariant (I := fun p => p.1.Tallied cfg.maxRetries p.2) hempty ?_
  intro p a q hr hp _ hs
  obtain ⟨hstep, hwatch⟩ := System.watched_step.mp hs
  obtain ⟨place, hkept⟩ := kept_reach hr.unwatched
  rw [← Option.some.inj hwatch]
  exact hp.step hmax hkept hstep

/-- The `retry_count` of what is in a list is the number of its negative acknowledgements and less
than `max_retries`; no message is delivered more often than `max_retries` times, and a message is
in its dead-letter list exactly once its `max_retries`-th negative acknowledgement is processed. -/
theorem boundedRedelivery (hmax : 1 ≤ cfg.maxRetries) {p : Service Node Payload × List Nack}
    (h : (nackedQueue cfg).Reachable p) : p.1.BoundedRedelivery cfg.maxRetries p.2 := by
  have ht := tallied_reach hmax h
  obtain ⟨place, hk⟩ := kept_reach h.unwatched
  constructor
  case listed =>
    intro home m hm
    obtain ⟨hr, -, -, hlt⟩ := ht.fits (.queue home) m hm
    exact ⟨hr, hr ▸ hlt⟩
  case delivered =>
    intro messageId
    by_cases hid : messageId ∈ (pushes p.1.history).map Message.messageId
    · obtain ⟨m, hm, rfl⟩ := List.mem_map.mp hid
      obtain ⟨i, hi, -⟩ := hk.pushed m hm
      obtain ⟨m', hm', hid'⟩ := hk.custody.exists_mem hi
      have hfits := ht.fits i m' hm'
      rw [hid'] at hfits
      exact hfits.bounds.1
    · have hzero : (deliveries p.1.history).count messageId = 0 :=
        congrArg Tally.delivered (ht.unpushed messageId hid)
      omega
  case buried =>
    intro m hm
    obtain ⟨i, hi, hw⟩ := hk.pushed m hm
    obtain ⟨m', hm', hid⟩ := hk.custody.exists_mem hi
    have hfits := ht.fits i m' hm'
    rw [hid] at hfits
    constructor
    · intro hdead
      obtain ⟨m'', hm'', hid''⟩ := List.mem_map.mp hdead
      obtain ⟨-, hp, -, heq⟩ := ht.fits (.dead m.home) m'' hm''
      rw [hid''] at hp heq
      exact hp.trans heq
    · intro hlast
      by_cases hi' : ∃ home, i = .dead home
      · obtain ⟨home, rfl⟩ := hi'
        obtain ⟨m₁, hm₁, hid₁, hhome₁⟩ := hk.origin (.dead home) rfl m' hm'
        have hsame : m₁ = m := List.inj_on_of_nodup_map hk.once hm₁ hm (hid₁.trans hid)
        have hhome : m.home = home := by
          rw [← hsame, hhome₁, hk.filed (.dead home) home rfl m' hm']
        exact List.mem_map.mpr ⟨m', hhome ▸ hm', hid⟩
      · have hlt := hfits.bounds.2 fun home he => hi' ⟨home, he⟩
        exact absurd hlast hlt.ne

/-- A message is nacked three times: twice by the client and once by the timeout checker. -/
def nackedThrice : List (Action Nat Nat) :=
  [.produce 0 "orders" 7 none [] "m" 0, .resume 0 0, .resume 0 0,
   .consume 0 "orders" "group" "a" (some [0]) 1, .resume 0 0,
   .negativeAcknowledge 0 "m", .resume 0 0,
   .consume 1 "orders" "group" "b" (some [0]) 1, .resume 1 0,
   .checkTimeouts 1 31, .resume 1 0,
   .consume 0 "orders" "group" "a" (some [0]) 1, .resume 0 0,
   .negativeAcknowledge 0 "m", .resume 0 0]

theorem boundedRedelivery_nackedThrice :
    ∃ p, (nackedQueue plain).run (nackedQueue plain).init nackedThrice = some p ∧
      (p.1.redis.dlq ("orders", 0)).map Message.messageId = ["m"] ∧
      p.1.BoundedRedelivery 3 p.2 := by
  have hrun : ((nackedQueue plain).run (nackedQueue plain).init nackedThrice).any (fun p =>
      (p.1.redis.dlq ("orders", 0)).map Message.messageId = ["m"]) = true := by
    decide +kernel
  obtain ⟨p, hp, hdead⟩ := (Option.any_eq_true ..).mp hrun
  exact ⟨p, hp, of_decide_eq_true hdead,
    boundedRedelivery (by decide) (System.reachable_run hp)⟩

end DistSync.Queue
